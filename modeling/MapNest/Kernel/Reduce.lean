import MapNest.Attempt

/-!
# `MapNest.Kernel.Reduce`: kernels that only rearrange data

A kernel whose body is a single rearrangement, reshaping or copy of its only input, read at just the
current point, does the same as that operation on the whole array. `Kernel.wholeOp?` recognises such
kernels and gives the operation: a rearrangement leaves the dimensions of the iteration space in
place and shifts the others, and a reshaping keeps their sizes in front of the new ones.
-/

set_option autoImplicit false

namespace MapNest

/-- The numbers of dimensions stay below this. -/
def dimensionLimit : Nat := Nat.pow 2 64

/-- Numbers of dimensions moved past some outer ones. -/
def shiftDims (outer : Nat) (perm : List Nat) : Except Failure (List Nat) :=
  if perm.all fun k => k + outer < dimensionLimit then .ok (perm.map (· + outer))
  else .error .overflow

/-- The input is read at the current point: its indices are those of the iteration space. -/
def KernelInput.atPoint (space : List Axis) (i : KernelInput) : Bool :=
  i.indices = space.map fun a => .var a.index

namespace Kernel

/-- The only input and the only operation of a kernel that returns the result of that operation and
reads its input at the current point. -/
def sole? (k : Kernel) : Option (KernelInput × Op) :=
  match k.inputs, k.body with
  | [input], .bind [b] (.op op) (.yield [v]) =>
    if v = .var b.name ∧ input.atPoint k.space then some (input, op) else none
  | _, _ => none

/-- The operation on the whole array that does the same as the kernel, if it is known to be one. -/
def wholeOp? (k : Kernel) : Except Failure (Option Op) :=
  match k.sole? with
  | none => .ok none
  | some (input, .rearrange checks perm array) =>
    if array = input.param.name then do
      let shifted ← shiftDims k.space.length perm
      return some
        (.rearrange (k.checks ++ checks) (List.range k.space.length ++ shifted) input.array)
    else .ok none
  | some (input, .reshape checks shape array) =>
    if array = input.param.name then
      let sizes := k.space.map fun a => NewDim.coercion a.size
      .ok (some (.reshape (k.checks ++ checks) (sizes ++ shape) input.array))
    else .ok none
  | some (input, .copy array) =>
    if array = input.param.name then .ok (some (.copy input.array)) else .ok none
  | some _ => .ok none

end Kernel

/-- Replaces a kernel by the operation that does the same. Other statements stay as they are. -/
def Stm.reduce (s : Stm) : AttemptM Stm :=
  match s.exp with
  | .kernel k => do
    match ← AttemptM.ofExcept k.wholeOp? with
    | some op =>
      AttemptM.note (.reduced op)
      return { s with exp := .op op }
    | none => return s
  | _ => return s

end MapNest
