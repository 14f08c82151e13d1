import MapNest.Proofs.Kernel.Enter
import MapNest.Proofs.Semantics.Layout

/-!
# `MapNest.Proofs.Semantics.Tensor`: operations on arrays with their shapes

A `Value` lists its rows, so an array without rows says nothing of the sizes further in. Rearranging
and reshaping depend on these sizes. Here an array is a shape with an element at each index
(`Tensor`), whatever sizes are zero. Forgetting the shape gives the value (`Tensor.value`).

Values are given to rearrangements, reshapings and copies of an array, and to bodies made of them
(`Op.tensor?`, `Body.tensors?`). Nothing else has a value here. Rearranging takes a permutation of
all dimensions, and reshaping a shape for as many elements. Whether a new size is exact or a
coercion makes no difference.

A kernel enters a point of its space as in `Kernel.enter`: both find the same values there, as long
as what is read lies within the arrays (`Kernel.values_enterShaped`).
-/

set_option autoImplicit false

namespace MapNest

/-! ### Arrays -/

/-- An array: its sizes, the outermost first, and its element at each index. A single value is an
array without dimensions. -/
structure Tensor where
  /-- The sizes. -/
  dims : List Nat
  /-- The elements. Only those at an index within the sizes count. -/
  elem : List Nat → Const

namespace Tensor

variable {t : Tensor} {point : List Nat}

/-- The rows of an array, and of its rows in turn. -/
def valueAt : List Nat → (List Nat → Const) → Value
  | [], elem => .scalar (elem [])
  | d :: dims, elem => .array ((List.range d).map fun i => valueAt dims fun ix => elem (i :: ix))

/-- The value of an array. It does not tell the sizes inside a dimension of size zero. -/
def value (t : Tensor) : Value := valueAt t.dims t.elem

/-- A single value. -/
def ofConst (c : Const) : Tensor := ⟨[], fun _ => c⟩

/-- The part of an array at a point of its outer dimensions. -/
def part (t : Tensor) (point : List Nat) : Tensor :=
  ⟨t.dims.drop point.length, fun ix => t.elem (point ++ ix)⟩

/-- The elements of an array in a layout. -/
def laidOut (t : Tensor) {dims : List Nat} (l : Layout dims) : Tensor :=
  ⟨l.shape, fun ix => t.elem (l.source ix)⟩

/-- The part of an array is the part of its value, row by row. -/
theorem value_part (h : Within point (t.dims.take point.length)) :
    (t.part point).value = t.value.part point := by
  obtain ⟨dims, elem⟩ := t
  induction point generalizing dims elem with
  | nil => rfl
  | cons i point ih =>
    cases dims with
    | nil => cases h
    | cons d dims =>
      obtain ⟨hi, hpoint⟩ := List.forall₂_cons.1 h
      have hrow : (Tensor.mk (d :: dims) elem).value.row i
          = (Tensor.mk dims fun ix => elem (i :: ix)).value := by
        simp [value, valueAt, Value.row, hi]
      rw [Value.part, List.foldl_cons, hrow]
      exact ih dims (fun ix => elem (i :: ix)) hpoint

end Tensor

/-- An array for every name. -/
abbrev Tensors := Name → Tensor

namespace Tensors

variable {ρ : Tensors} {n : Name}

/-- The values of all names. -/
def values (ρ : Tensors) : Env := fun n => (ρ n).value

/-- Gives each name of a list the array at its place in another, from left to right. -/
def bindAll (ρ : Tensors) : List Name → List Tensor → Tensors
  | n :: ns, t :: ts => bindAll (Function.update ρ n t) ns ts
  | _, _ => ρ

/-- A name that is not on the list keeps its array. -/
theorem bindAll_of_not_mem {ns : List Name} {ts : List Tensor} (h : n ∉ ns) :
    ρ.bindAll ns ts n = ρ n := by
  induction ns generalizing ρ ts with
  | nil => rfl
  | cons m ns ih =>
    rw [List.mem_cons, not_or] at h
    cases ts with
    | nil => rfl
    | cons t ts => rw [bindAll, ih h.2, Function.update_of_ne h.1]

/-- One more array in the store is one more value among the values. -/
theorem values_update {t : Tensor} : values (Function.update ρ n t) = ρ.values.bind n t.value := by
  funext m
  by_cases hm : m = n
  · rw [hm, values, Function.update_self, Env.bind_self]
  · rw [values, Function.update_of_ne hm, Env.bind_of_ne hm]
    rfl

/-- The values of a store with some more arrays are the old ones with theirs. -/
theorem values_bindAll {ns : List Name} {ts : List Tensor} (hlen : ns.length = ts.length) :
    (ρ.bindAll ns ts).values = ρ.values.bindAll ns (ts.map Tensor.value) := by
  induction ns generalizing ρ ts with
  | nil => rfl
  | cons n ns ih =>
    cases ts with
    | nil => simp at hlen
    | cons t ts =>
      rw [bindAll, ih (by simpa using hlen), values_update, List.map_cons, Env.bindAll_cons]

end Tensors

/-! ### Operations -/

section Operations

variable {ρ σ : Tensors} {dims : List Nat} {o : Op}

/-- The array of an operand. -/
def Operand.tensor (ρ : Tensors) : Operand → Tensor
  | const c => .ofConst c
  | var n => ρ n

/-- The size that an operand stands for. -/
def Operand.size (ρ : Tensors) (v : Operand) : Nat := (v.eval ρ.values).count

/-- The size that an operand stands for depends on its own name only. -/
theorem Operand.size_congr {v : Operand} (h : ∀ n, v = .var n → ρ n = σ n) :
    v.size ρ = v.size σ :=
  congrArg Value.count (eval_congr fun n hn => congrArg Tensor.value (h n hn))

namespace Op

/-- The array that an operation lays out anew. -/
def array? : Op → Option Name
  | rearrange _ _ array => some array
  | reshape _ _ array => some array
  | copy array => some array
  | _ => none

/-- The sizes that an operation asks for. -/
def sizes : Op → List Operand
  | reshape _ shape _ => shape.map NewDim.size
  | _ => []

/-- How an operation lays out an array of some sizes, if it is well typed on it: a permutation has
to be one of all dimensions, and a shape has to hold as many elements. -/
def layout? (ρ : Tensors) (dims : List Nat) : Op → Option (Layout dims)
  | rearrange _ perm _ => Layout.rearranged? perm
  | reshape _ shape _ => Layout.reshaped? (shape.map fun d => d.size.size ρ)
  | copy _ => some (.same dims)
  | _ => none

/-- The value of an operation that lays out an array anew. -/
def tensor? (ρ : Tensors) (o : Op) : Option Tensor :=
  o.array?.bind fun n => (o.layout? ρ (ρ n).dims).map (ρ n).laidOut

/-- A layout depends on the sizes that are asked for. -/
theorem layout?_congr (h : ∀ n, .var n ∈ o.sizes → ρ n = σ n) :
    o.layout? ρ dims = o.layout? σ dims := by
  cases o with
  | reshape checks shape array =>
    have hsizes : (shape.map fun d => d.size.size ρ) = shape.map fun d => d.size.size σ := by
      refine List.map_congr_left fun d hd => Operand.size_congr fun n hn => h n ?_
      exact hn ▸ List.mem_map_of_mem hd
    rw [layout?, layout?, hsizes]
  | _ => rfl

end Op

/-- The arrays that a body yields. -/
def Body.tensors? : Body → Tensors → Option (List Tensor)
  | .yield values, ρ => some (values.map (Operand.tensor ρ))
  | .bind pattern (.op o) rest, ρ =>
    (o.tensor? ρ).bind fun t => rest.tensors? (ρ.bindAll (Pattern.names pattern) [t])
  | _, _ => none

end Operations

/-! ### At a point of a kernel -/

/-- What a parameter of a kernel holds at a point. -/
def KernelInput.partAt (i : KernelInput) (indices : List Name) (point : List Nat) (ρ : Tensors) :
    Tensor :=
  (ρ i.array).part (i.indices.map (Operand.numberAt indices point ρ.values))

namespace Kernel

variable {k : Kernel} {ρ : Tensors} {number : Tensor} {point : List Nat} {n : Name}

/-- The sizes of the space. -/
def sizes (k : Kernel) (ρ : Tensors) : List Nat := k.space.map fun a => a.size.size ρ

/-- The names that a kernel binds around its body: the number of a point, the indices of the space
and the parameters. -/
def locals (k : Kernel) : List Name :=
  k.thread :: k.space.map (·.index) ++ k.inputs.map (·.param.name)

/-- What holds at a point of a kernel, given what holds outside and the number of the point among
all points. -/
def enterShaped (k : Kernel) (number : Tensor) (point : List Nat) (ρ : Tensors) : Tensors :=
  Tensors.bindAll
    (Tensors.bindAll (Function.update ρ k.thread number) (k.space.map (·.index))
      (point.map fun i => .ofConst (.i32 (Int32.ofNat i))))
    (k.inputs.map (·.param.name)) (k.inputs.map (·.partAt (k.space.map (·.index)) point ρ))

/-- What the body of a kernel yields at a point. -/
def tensorsAt? (k : Kernel) (number : Tensor) (point : List Nat) (ρ : Tensors) :
    Option (List Tensor) :=
  k.body.tensors? (k.enterShaped number point ρ)

/-- What a kernel does not bind keeps its array at every point. -/
theorem enterShaped_of_not_mem (h : n ∉ k.locals) : k.enterShaped number point ρ n = ρ n := by
  simp only [locals, List.cons_append, List.mem_cons, List.mem_append, not_or] at h
  rw [enterShaped, Tensors.bindAll_of_not_mem h.2.2, Tensors.bindAll_of_not_mem h.2.1,
    Function.update_of_ne h.1]

/-- At a point of a kernel, names have the values that they have without shapes. -/
theorem values_enterShaped (hpoint : point.length = k.space.length)
    (hreads : ∀ i ∈ k.inputs,
      let numbers := i.indices.map (Operand.numberAt (k.space.map (·.index)) point ρ.values)
      Within numbers ((ρ i.array).dims.take numbers.length)) :
    (k.enterShaped number point ρ).values = k.enter number.value point ρ.values := by
  have hparts : (k.inputs.map (·.partAt (k.space.map (·.index)) point ρ)).map Tensor.value
      = k.inputs.map (·.read (k.space.map (·.index)) point ρ.values) := by
    rw [List.map_map]
    exact List.map_congr_left fun i hi => Tensor.value_part (hreads i hi)
  rw [enterShaped, Tensors.values_bindAll (by simp), Tensors.values_bindAll (by simp [hpoint]),
    Tensors.values_update, hparts, List.map_map]
  rfl

end Kernel

end MapNest
