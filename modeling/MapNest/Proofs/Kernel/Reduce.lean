import MapNest.Kernel.Reduce
import MapNest.Proofs.Semantics.Tensor

/-!
# `MapNest.Proofs.Kernel.Reduce`: one operation on a whole array for a kernel

A kernel that only lays out a row of an array anew at each point of its space is replaced by one
operation on the whole array, `Op.onAll`. The element of the result at an index `point ++ ix` is
then the element at `ix` of what the kernel's body yields at the point:

    kernel (i₁ < w₁, .., iₙ < wₙ) (x <- xs[i₁, .., iₙ]):
      y = rearrange (p₁, ..) x                          ↦  rearrange (0, .., n - 1, p₁ + n, ..) xs
      y

The two sides meet in the layout of a row. On the left, the part of the array at the point is laid
out: the indices are distinct, so the coordinates are read off one by one, and the parameter holds
the part at just this point (`Kernel.JustDoes.enterShaped_input`). On the right, the layout of the
whole array lifts the one of a row (`Op.layout?_onAll`).

A statement that is not replaced stays as it is, or numbers of dimensions overflow, which takes an
array with more dimensions than can be counted (`Stm.reduce_preserves`).
-/

set_option autoImplicit false

namespace MapNest

/-! ### What a kernel is replaced by -/

/-- The checks that an operation rests on. -/
def Op.checks : Op → List Name
  | index checks _ _ => checks
  | rearrange checks _ _ => checks
  | reshape checks _ _ => checks
  | _ => []

namespace Op

variable {ρ : Tensors} {o : Op} {checks : List Name} {outer : List Operand} {array : Name}
  {dims : List Nat}

/-- An operation on the parts of an array at the points of some outer sizes, all at once. -/
def onAll (checks : List Name) (outer : List Operand) (array : Name) : Op → Op
  | rearrange checks' perm _ => rearrange (checks ++ checks') (behind outer.length perm) array
  | reshape checks' shape _ => reshape (checks ++ checks') (outer.map .coercion ++ shape) array
  | copy _ => copy array
  | o => o

/-- On the whole array, an operation works on that array. -/
theorem array?_onAll {n : Name} (h : o.array? = some n) :
    (o.onAll checks outer array).array? = some array := by
  cases o with
  | rearrange checks' perm _ => rfl
  | reshape checks' shape _ => rfl
  | copy _ => rfl
  | _ => cases h

/-- An operation on the whole array mentions the array and the sizes around its parts, along with
what the operation on a part rests on and asks for. -/
theorem mem_mentions_onAll {n m : Name} (ho : o.array? = some m)
    (hn : n ∈ (o.onAll checks outer array).mentions) :
    n ∈ checks ∨ (n ∈ o.checks ∨ .var n ∈ o.sizes) ∨ .var n ∈ outer ∨ n = array := by
  cases o with
  | rearrange checks' perm _ =>
    simp only [onAll, mentions, Op.checks, List.mem_append, List.mem_singleton] at hn ⊢
    grind
  | reshape checks' shape _ =>
    simp only [onAll, mentions, Op.checks, sizes, List.mem_append, List.mem_singleton,
      Operand.mem_names, List.map_append, List.map_map] at hn ⊢
    have houter : outer.map (NewDim.size ∘ NewDim.coercion) = outer := List.map_id _
    rw [houter] at hn
    grind
  | copy _ => exact Or.inr (Or.inr (Or.inr (List.mem_singleton.1 hn)))
  | _ => cases ho

/-- An operation mentions its checks and its sizes. -/
theorem mem_mentions_of_asked {n : Name} (h : n ∈ o.checks ∨ .var n ∈ o.sizes) :
    n ∈ o.mentions := by
  cases o with
  | index checks array indices => simpa [Op.checks, sizes, mentions] using Or.inl h
  | rearrange checks perm array => simpa [Op.checks, sizes, mentions] using Or.inl h
  | reshape checks shape array =>
    simp only [Op.checks, sizes, mentions, List.mem_append, Operand.mem_names] at h ⊢
    exact Or.inl h
  | _ => simp [Op.checks, sizes] at h

/-- Whatever an operation does to an array, on the whole array it does to each part. -/
theorem layout?_onAll (checks : List Name) (outer : List Operand) (array : Name) {l : Layout dims}
    (h : o.layout? ρ dims = some l) :
    ∃ whole : Layout (outer.map (·.size ρ) ++ dims),
      (o.onAll checks outer array).layout? ρ (outer.map (·.size ρ) ++ dims) = some whole ∧
        l.Lifts whole := by
  cases o with
  | rearrange checks' perm _ =>
    rw [onAll, layout?, ← List.length_map (f := (·.size ρ))]
    exact Layout.rearranged?_lifts h
  | reshape checks' shape _ =>
    rw [onAll, layout?, List.map_append, List.map_map]
    exact Layout.reshaped?_lifts h
  | copy _ =>
    cases h
    exact ⟨_, rfl, Layout.same_lifts⟩
  | _ => cases h

/-- Each coercion is to the size that the dimension at its place has already. -/
def Coerces (ρ : Tensors) (dims : List Nat) : Op → Prop
  | reshape _ shape _ =>
    ∀ (i : Nat) (v : Operand), shape[i]? = some (.coercion v) → dims[i]? = some (v.size ρ)
  | _ => True

/-- The outer sizes are coercions to what they are. -/
theorem Coerces.onAll (h : o.Coerces ρ dims) :
    (o.onAll checks outer array).Coerces ρ (outer.map (·.size ρ) ++ dims) := by
  cases o with
  | reshape checks' shape _ =>
    intro i v hi
    rw [List.getElem?_append, List.length_map] at hi ⊢
    split at hi
    · next hlt =>
      rw [if_pos hlt, List.getElem?_map]
      rw [List.getElem?_map] at hi
      obtain ⟨v, hv, heq⟩ := Option.map_eq_some_iff.1 hi
      cases heq
      rw [hv]
      rfl
    · next hge =>
      rw [if_neg hge]
      exact h _ _ hi
  | _ => exact trivial

/-- The dimensions that an operation permutes can be counted behind some outer ones. -/
def Countable (outer : Nat) : Op → Prop
  | rearrange _ perm _ => ∀ d ∈ perm, d + outer < dimensionLimit
  | _ => True

instance decidableCountable (outer : Nat) : ∀ o : Op, Decidable (o.Countable outer)
  | rearrange _ perm _ => inferInstanceAs (Decidable (∀ d ∈ perm, d + outer < dimensionLimit))
  | value _ | arith _ _ _ _ | index _ _ _ | iota _ | replicate _ _ | reshape _ _ _ | copy _ =>
    inferInstanceAs (Decidable True)

/-- Only a rearrangement may lead out of the range of dimensions, by one of the numbers that it
permutes. -/
theorem exists_of_not_countable {count : Nat} (h : ¬o.Countable count) :
    ∃ checks perm array, o = .rearrange checks perm array ∧
      ∃ d ∈ perm, dimensionLimit ≤ d + count := by
  cases o with
  | rearrange checks perm array =>
    simp only [Countable, not_forall, Nat.not_lt] at h
    obtain ⟨d, hd, hlimit⟩ := h
    exact ⟨checks, perm, array, rfl, d, hd, hlimit⟩
  | _ => exact absurd trivial h

end Op

namespace Kernel

variable {k : Kernel} {input : KernelInput} {inner : Op}

/-- A kernel just does one operation: the operation lays out the only input, which is read at the
current point, and its result is the only one. -/
structure JustDoes (k : Kernel) (input : KernelInput) (inner : Op) : Prop where
  inputs : k.inputs = [input]
  indices : input.indices = k.space.map fun a => .var a.index
  body : ∃ b : Binder, k.body = .bind [b] (.op inner) (.yield [.var b.name])
  array : inner.array? = some input.param.name

/-- A kernel has a sole input and operation exactly if it reads that input at the current point and
returns the result of that operation. -/
theorem sole?_eq_some_iff :
    k.sole? = some (input, inner) ↔ k.inputs = [input] ∧
      input.indices = k.space.map (fun a => .var a.index) ∧
      ∃ b : Binder, k.body = .bind [b] (.op inner) (.yield [.var b.name]) := by
  constructor
  · intro h
    unfold sole? at h
    split at h
    · rename_i input' b inner' v hinputs hbody
      split at h
      · rename_i hpoint
        cases h
        obtain ⟨rfl, hindices⟩ := hpoint
        exact ⟨hinputs, of_decide_eq_true hindices, b, hbody⟩
      · cases h
    · cases h
  · rintro ⟨hinputs, hindices, b, hbody⟩
    rw [sole?, hinputs, hbody]
    exact if_pos ⟨rfl, decide_eq_true hindices⟩

/-- The sole input and operation of a kernel that just does this operation. -/
theorem JustDoes.sole?_eq (h : k.JustDoes input inner) : k.sole? = some (input, inner) :=
  sole?_eq_some_iff.2 ⟨h.inputs, h.indices, h.body⟩

/-- A kernel that just does one operation is replaced, or the dimensions of a rearrangement cannot
be counted. -/
theorem JustDoes.wholeOp?_eq (h : k.JustDoes input inner) :
    k.wholeOp? = if inner.Countable k.space.length then
      .ok (some (inner.onAll k.checks (k.space.map (·.size)) input.array))
    else .error .overflow := by
  have harray := h.array
  rw [wholeOp?, h.sole?_eq]
  cases inner with
  | rearrange checks perm array =>
    cases harray
    have hall : (perm.all fun d => d + k.space.length < dimensionLimit) = true ↔
        (Op.rearrange checks perm input.param.name).Countable k.space.length := by
      simp only [List.all_eq_true, decide_eq_true_eq, Op.Countable]
    dsimp only
    rw [if_pos rfl, shiftDims]
    by_cases hcount : (Op.rearrange checks perm input.param.name).Countable k.space.length
    · rw [if_pos hcount, if_pos (hall.2 hcount)]
      simp [Op.onAll, behind, bind, Except.bind, pure, Except.pure]
    · rw [if_neg hcount, if_neg (mt hall.1 hcount)]
      rfl
  | reshape checks shape array =>
    cases harray
    simp [Op.onAll, Op.Countable, List.map_map, Function.comp_def]
  | copy array =>
    cases harray
    simp [Op.onAll, Op.Countable]
  | _ => cases harray

/-- A kernel that does not just do one operation is kept. -/
theorem wholeOp?_eq_none (h : ∀ input inner, ¬k.JustDoes input inner) : k.wholeOp? = .ok none := by
  cases hk : k.sole? with
  | none => rw [wholeOp?, hk]
  | some sole =>
    obtain ⟨input, inner⟩ := sole
    obtain ⟨hinputs, hindices, hbody⟩ := sole?_eq_some_iff.1 hk
    have harray : inner.array? ≠ some input.param.name := fun harray =>
      h input inner ⟨hinputs, hindices, hbody, harray⟩
    cases inner <;> simp_all [wholeOp?, Op.array?]

/-- A kernel is kept unless it just does one operation. It is then replaced, or the dimensions of a
rearrangement cannot be counted. -/
theorem wholeOp?_cases (k : Kernel) :
    (k.wholeOp? = .ok none ∧ ∀ input inner, ¬k.JustDoes input inner) ∨
    ∃ input inner, k.JustDoes input inner ∧
      (k.wholeOp? = .ok (some (inner.onAll k.checks (k.space.map (·.size)) input.array)) ∨
        k.wholeOp? = .error .overflow ∧
          ∃ checks perm array, inner = .rearrange checks perm array ∧
            ∃ d ∈ perm, dimensionLimit ≤ d + k.space.length) := by
  by_cases h : ∃ input inner, k.JustDoes input inner
  · obtain ⟨input, inner, hdoes⟩ := h
    refine Or.inr ⟨input, inner, hdoes, ?_⟩
    rw [hdoes.wholeOp?_eq]
    split
    · exact Or.inl rfl
    · next hcount => exact Or.inr ⟨rfl, Op.exists_of_not_countable hcount⟩
  · simp only [not_exists] at h
    exact Or.inl ⟨wholeOp?_eq_none h, h⟩

/-- An operation that is found is that of the kernel, done on the whole array. -/
theorem wholeOp?_eq_some {o : Op} (h : k.wholeOp? = .ok (some o)) :
    ∃ input inner, k.JustDoes input inner ∧
      o = inner.onAll k.checks (k.space.map (·.size)) input.array := by
  rcases k.wholeOp?_cases with ⟨hnone, -⟩ | ⟨input, inner, hdoes, hop | ⟨hfails, -⟩⟩
  · cases hnone.symm.trans h
  · cases hop.symm.trans h
    exact ⟨input, inner, hdoes, rfl⟩
  · cases hfails.symm.trans h

/-! ### What the kernel yields -/

/-- What a well-typed kernel guarantees, if its body is one operation on its only input: the
operation has a layout for the rows that it is given. -/
structure LaysOut (k : Kernel) (input : KernelInput) (inner : Op) (ρ : Tensors)
    {row : List Nat} (l : Layout row) : Prop where
  /-- The indices of the space are distinct. -/
  nodup : (k.space.map (·.index)).Nodup
  /-- The sizes that are asked for do not depend on the point. -/
  sizes : ∀ n, .var n ∈ inner.sizes → n ∉ k.locals
  /-- The array that is read has the sizes of the space in front of those of a row. -/
  dims : (ρ input.array).dims = k.sizes ρ ++ row
  /-- The operation is well typed on a row. -/
  layout : inner.layout? ρ row = some l

/-- An operation gives all that a kernel yields: an array with the sizes of the space in front, and
in it at each point what the body yields there. -/
def DoneBy (k : Kernel) (o : Op) (ρ : Tensors) (shape : List Nat) : Prop :=
  ∃ out, o.tensor? ρ = some out ∧ out.dims = k.sizes ρ ++ shape ∧
    ∀ number point, Within point (k.sizes ρ) →
      ∃ part, k.tensorsAt? number point ρ = some [part] ∧ part.dims = shape ∧
        ∀ ix, Within ix shape → out.elem (point ++ ix) = part.elem ix

/-- A parameter that is read at the indices of the space holds the part at the point. -/
theorem JustDoes.enterShaped_input {ρ : Tensors} {number : Tensor} {point : List Nat}
    (h : k.JustDoes input inner) (hnodup : (k.space.map (·.index)).Nodup)
    (hpoint : k.space.length = point.length) :
    k.enterShaped number point ρ input.param.name = (ρ input.array).part point := by
  have hnumbers := Operand.numberAt_var (ρ := ρ.values) hnodup (by rwa [List.length_map])
  rw [List.forall₂_map_left_iff, ← List.forall₂_map_left_iff (f := fun a : Axis =>
    Operand.numberAt (k.space.map (·.index)) point ρ.values (.var a.index)),
    List.forall₂_eq_eq_eq] at hnumbers
  rw [enterShaped, h.inputs]
  show Function.update _ input.param.name _ input.param.name = _
  rw [Function.update_self, KernelInput.partAt, h.indices, List.map_map]
  exact congrArg _ hnumbers

/-- The operation on the whole array does the same as the kernel. -/
theorem LaysOut.doneBy {ρ : Tensors} {row : List Nat} {l : Layout row}
    (h : k.LaysOut input inner ρ l) (hdoes : k.JustDoes input inner) :
    k.DoneBy (inner.onAll k.checks (k.space.map (·.size)) input.array) ρ l.shape := by
  have hsizes : (k.space.map (·.size)).map (·.size ρ) = k.sizes ρ := List.map_map
  obtain ⟨b, hbody⟩ := hdoes.body
  obtain ⟨whole, hwhole, hlifts⟩ :=
    Op.layout?_onAll k.checks (k.space.map (·.size)) input.array h.layout
  refine ⟨(ρ input.array).laidOut whole, ?_, ?_, fun number point hpoint => ?_⟩
  · rw [Op.tensor?, Op.array?_onAll hdoes.array, Option.bind_some, h.dims, ← hsizes, hwhole,
      Option.map_some]
  · exact hlifts.shape.trans (congrArg (· ++ l.shape) hsizes)
  have hlen : k.space.length = point.length := by
    simpa [Kernel.sizes] using hpoint.length_eq.symm
  have hparam : k.enterShaped number point ρ input.param.name = (ρ input.array).part point :=
    hdoes.enterShaped_input h.nodup hlen
  -- The row has the sizes behind those of the space, and the operation finds the same sizes there.
  have hrow : ((ρ input.array).part point).dims = row := by
    rw [Tensor.part, h.dims, List.drop_left' hpoint.length_eq.symm]
  have hlayout : inner.layout? (k.enterShaped number point ρ) row = some l := by
    rw [← h.layout]
    exact Op.layout?_congr fun n hn => enterShaped_of_not_mem (h.sizes n hn)
  have hinner : inner.tensor? (k.enterShaped number point ρ)
      = some (((ρ input.array).part point).laidOut l) := by
    rw [Op.tensor?, hdoes.array, Option.bind_some, hparam, hrow, hlayout, Option.map_some]
  refine ⟨((ρ input.array).part point).laidOut l, ?_, rfl, fun ix hix => ?_⟩
  · rw [tensorsAt?, hbody, Body.tensors?, hinner]
    show some [Function.update _ b.name _ b.name] = _
    rw [Function.update_self]
  · exact congrArg (ρ input.array).elem (hlifts.source point ix (hsizes ▸ hpoint) hix)

end Kernel

/-! ### The theorem -/

/-- Reducing a kernel is putting the operation that is found in its place, with a note. -/
theorem Stm.reduce_kernel {p : Pattern} {k : Kernel} {st : Attempt} :
    Stm.reduce ⟨p, .kernel k⟩ st = match k.wholeOp? with
      | .ok (some o) => .ok ⟨p, .op o⟩ { st with log := st.log ++ [.reduced o] }
      | .ok none => .ok ⟨p, .kernel k⟩ st
      | .error e => .error (.failed e) st := by
  dsimp only [reduce]
  cases k.wholeOp? with
  | error e => rfl
  | ok o? => cases o? <;> rfl

/-- A statement stays as it is, unless it is a kernel that just does one operation on its only
input. Then one operation on the whole array gives what the kernel yields, in its place and with
coercions that hold. This may fail only for an array with more dimensions than can be counted. -/
theorem Stm.reduce_preserves (s : Stm) (st : Attempt) :
    (s.reduce st = .ok s st ∧ ∀ k input inner, s.exp = .kernel k → ¬k.JustDoes input inner) ∨
    ∃ k input inner, s.exp = .kernel k ∧ k.JustDoes input inner ∧
      ((∃ o, o = inner.onAll k.checks (k.space.map (·.size)) input.array ∧
          s.reduce st = .ok { s with exp := .op o } { st with log := st.log ++ [.reduced o] } ∧
          ∀ (ρ : Tensors) (row : List Nat) (l : Layout row), k.LaysOut input inner ρ l →
            k.DoneBy o ρ l.shape ∧
              (inner.Coerces ρ row → o.Coerces ρ (ρ input.array).dims)) ∨
        s.reduce st = .error (.failed .overflow) st ∧
          ∀ (ρ : Tensors) (row : List Nat) (l : Layout row), k.LaysOut input inner ρ l →
            dimensionLimit < (ρ input.array).dims.length) := by
  obtain ⟨pattern, exp⟩ := s
  cases exp with
  | kernel k =>
    rw [reduce_kernel]
    rcases k.wholeOp?_cases with ⟨hnone, hkept⟩ | ⟨input, inner, hdoes, hop⟩
    · rw [hnone]
      refine Or.inl ⟨rfl, fun k' input inner hk => ?_⟩
      cases hk
      exact hkept input inner
    refine Or.inr ⟨k, input, inner, rfl, hdoes, ?_⟩
    rcases hop with hop | ⟨hfails, checks, perm, array, rfl, d, hd, hlimit⟩
    · rw [hop]
      refine Or.inl ⟨_, rfl, rfl, fun ρ row l h => ⟨?_, fun hcoerces => ?_⟩⟩
      · exact h.doneBy hdoes
      · have hdims : (ρ input.array).dims = (k.space.map (·.size)).map (·.size ρ) ++ row := by
          rw [h.dims, List.map_map]
          rfl
        exact hdims ▸ hcoerces.onAll
    · -- The number that is too large is one of a dimension of the row.
      rw [hfails]
      refine Or.inr ⟨rfl, fun ρ row l h => ?_⟩
      obtain ⟨hperm, -⟩ := Option.dite_none_right_eq_some.1 h.layout
      have hlt : d < row.length := List.mem_range.1 (hperm.mem_iff.1 hd)
      have hlen : (ρ input.array).dims.length = k.space.length + row.length := by
        rw [h.dims, List.length_append, Kernel.sizes, List.length_map]
      omega
  | _ => exact Or.inl ⟨rfl, fun _ _ _ hk => by cases hk⟩

/-! A kernel that transposes each of two by three matrices of four rows and five columns:

    kernel (i < 2, j < 3) (x <- xs[i, j]):
      y = rearrange (1, 0) x
      y
-/

namespace Transposes

/-- Integers in dimensions of some sizes. -/
def ints (sizes : List Int32) : Ty := .array .i32 (sizes.map .ofInt32) false

/-- The matrix at a point. -/
def input : KernelInput :=
  ⟨⟨⟨"x", 3⟩, ints [4, 5]⟩, ⟨"xs", 4⟩, [.var ⟨"i", 1⟩, .var ⟨"j", 2⟩]⟩

/-- The work at a point. -/
def inner : Op := .rearrange [] [1, 0] ⟨"x", 3⟩

/-- The kernel. -/
def kernel : Kernel where
  checks := []
  width := .ofInt32 6
  thread := ⟨"t", 0⟩
  space := [⟨⟨"i", 1⟩, .ofInt32 2⟩, ⟨⟨"j", 2⟩, .ofInt32 3⟩]
  inputs := [input]
  returns := [⟨ints [5, 4], [0, 1]⟩]
  body := .ofStm (.ofOp ⟨⟨"y", 5⟩, ints [5, 4]⟩ inner)

/-- The kernel with its result. -/
def stm : Stm := ⟨[⟨⟨"ys", 6⟩, ints [2, 3, 5, 4]⟩], .kernel kernel⟩

/-- The same on the whole array. -/
def whole : Op := .rearrange [] [0, 1, 3, 2] ⟨"xs", 4⟩

/-- The numbers from zero on, in four dimensions. -/
def numbers : Tensors := fun _ =>
  ⟨[2, 3, 4, 5], fun ix => .i32 (Int32.ofNat (rowMajor [2, 3, 4, 5] ix))⟩

/-- How a matrix is laid out. -/
def layout : Layout [4, 5] := .rearranged [1, 0] (by decide)

/-- The kernel transposes the matrix at each point. -/
theorem laysOut : kernel.LaysOut input inner numbers layout where
  nodup := by decide
  sizes n hn := by cases hn
  dims := rfl
  layout := rfl

/-- The kernel is reduced to a rearrangement that leaves the first two dimensions. -/
theorem reduce_eq : stm.reduce ⟨⟨7⟩, ∅, []⟩
    = .ok { stm with exp := .op whole } ⟨⟨7⟩, ∅, [.reduced whole]⟩ := rfl

end Transposes

/-- The rearrangement does what the kernel did, on arrays that hold their numbers. -/
theorem Stm.reduce_preserves_transposes :
    Transposes.kernel.LaysOut Transposes.input Transposes.inner Transposes.numbers
        Transposes.layout ∧
      Transposes.kernel.DoneBy Transposes.whole Transposes.numbers [5, 4] := by
  refine ⟨Transposes.laysOut, ?_⟩
  rcases Stm.reduce_preserves Transposes.stm ⟨⟨7⟩, ∅, []⟩ with
    ⟨hsame, -⟩ | ⟨k, input, inner, hk, hdoes, ⟨o, -, hreduce, h⟩ | ⟨hfails, -⟩⟩
  · cases Transposes.reduce_eq.symm.trans hsame
  · cases hk
    cases hdoes.inputs
    obtain ⟨b, hbody⟩ := hdoes.body
    cases hbody
    cases Transposes.reduce_eq.symm.trans hreduce
    exact (h _ _ _ Transposes.laysOut).1
  · cases Transposes.reduce_eq.symm.trans hfails

end MapNest
