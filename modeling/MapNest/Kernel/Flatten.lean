import MapNest.Analysis.Free
import MapNest.Name.Supply
import MapNest.Nest.Level

/-!
# `MapNest.Kernel.Flatten`: one kernel for a nest

`KernelNest.flatten` turns a nest and the body at its heart into a single kernel. The iteration
space has one dimension for each level, and the number of points is the product of all widths,
computed by the statements in front of the kernel.

A parameter of an inner level may be a row of a parameter of an outer one. In the kernel it is read
from the array outside the nest, at the indices of all the levels it passes through
(`Level.reindex`). Of all parameters the kernel keeps those that its body reads.
-/

set_option autoImplicit false

namespace MapNest

/-- A kernel and the statements in front of it. -/
structure FlatKernel where
  /-- The computation of the number of points. -/
  prelude : List Stm
  /-- The statement of the kernel. -/
  stm : Stm
deriving DecidableEq

/-- Multiplies further widths onto a product, each partial product under a fresh name. -/
def multiplyWidths (product : Operand) : List Operand → FreshM (List Stm × Operand)
  | [] => return ([], product)
  | w :: rest => do
    let name ← Supply.fresh "nesting_size"
    let (stms, total) ← multiplyWidths (.var name) rest
    return (Stm.arith .mul name .i32 product w :: stms, total)

/-- Reads an input from the array outside a level if what it is read from is a parameter of the
level: the level's index comes in front of its indices. -/
def Level.reindex (l : Level) (i : KernelInput) : KernelInput :=
  match l.input? i.array with
  | some r => { i with array := r.array, indices := .var l.index :: i.indices }
  | none => i

/-- The inputs of a level and of the levels inside it, as seen from outside the level. -/
def Level.flattenInputs (l : Level) (inner : List KernelInput) : List KernelInput :=
  l.inputs.map (fun r => ⟨r.param, r.array, [.var l.index]⟩) ++ inner.map l.reindex

namespace KernelNest

/-- The iteration space: a dimension for each level, outermost first. -/
def space (n : KernelNest) : List Axis := n.toList.map fun l => ⟨l.index, l.width⟩

/-- The parameters of all levels, read from arrays outside the nest. -/
def inputs (n : KernelNest) : List KernelInput := n.toList.foldr Level.flattenInputs []

/-- The kernel that runs a body at the heart of a nest. The body has to yield a value for each array
of the innermost level; the kernel binds the arrays of the outermost one. -/
def flatten (n : KernelNest) (body : Body) : FreshM FlatKernel := do
  let innermost := n.inner.pattern
  let outermost := n.outermost
  unless innermost.length = body.result.length do
    throw (.arityMismatch .kernelBody innermost.length body.result.length)
  let (prelude, width) ← multiplyWidths outermost.width n.widths.tail
  let read := body.free
  let thread ← Supply.fresh "global_thread_index"
  let kernel : Kernel :=
    { checks := outermost.checks
      width
      thread
      space := n.space
      inputs := n.inputs.filter (·.param.name ∈ read)
      returns := innermost.map fun b => ⟨b.ty.row, List.range n.depth⟩
      body }
  return ⟨prelude, ⟨outermost.pattern, .kernel kernel⟩⟩

end KernelNest

end MapNest
