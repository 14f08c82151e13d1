import Mathlib.Algebra.Ring.Int.Defs
import Mathlib.Algebra.Ring.Nat
import MapNest.Proofs.Kernel.Flatten
import MapNest.Proofs.Semantics.Run

/-!
# `MapNest.Proofs.Kernel.Width`: the number of points of a kernel

In front of a kernel stand the statements that multiply the widths of its nest. Here they are run:
`Stm.compute` gives a meaning to arithmetic on 32-bit integers, which wraps around.
`KernelNest.flatten_width` says that the width of the kernel then has the value of the product, and
that the statements read nothing but widths and the partial products before them.

The product is folded from the left, and each step replaces the product so far by a new name. So the
induction is on the widths that are left, for any product so far (`multiplyWidths_computes`), and it
needs that no width has the new name: its value would be lost.
-/

set_option autoImplicit false

namespace MapNest

variable {ρ : Env}

/-! ### Arithmetic on 32-bit integers -/

/-- A 32-bit integer as a value. -/
def Value.ofInt32 (n : Int32) : Value := .scalar (.i32 n)

/-- Arithmetic on 32-bit integers. What does not fit wraps around. -/
def Arith.onInt32 : Arith → Int32 → Int32 → Int32
  | add, a, b => a + b
  | sub, a, b => a - b
  | mul, a, b => a * b

/-- The value of arithmetic on 32-bit integers. Other operations have none here. -/
def Op.int32? (ρ : Env) : Op → Option Int32
  | arith op .i32 left right =>
    match left.eval ρ, right.eval ρ with
    | .scalar (.i32 a), .scalar (.i32 b) => some (op.onInt32 a b)
    | _, _ => none
  | _ => none

namespace Stm

/-- What holds after a statement that does arithmetic on 32-bit integers. -/
def compute (ρ : Env) : Stm → Option Env
  | ⟨[b], .op o⟩ => (o.int32? ρ).map fun v => ρ.bind b.name (.ofInt32 v)
  | _ => none

/-- What holds after some statements that do arithmetic on 32-bit integers. -/
def computeAll : List Stm → Env → Option Env
  | [], ρ => some ρ
  | s :: rest, ρ => (s.compute ρ).bind (computeAll rest)

/-- Arithmetic on two 32-bit integers binds their result, modulo `2 ^ 32`. -/
theorem compute_arith {op : Arith} {name : Name} {left right : Operand} {a b : Int32}
    (hleft : left.eval ρ = .ofInt32 a) (hright : right.eval ρ = .ofInt32 b) :
    (arith op name .i32 left right).compute ρ = some (ρ.bind name (.ofInt32 (op.onInt32 a b))) := by
  simp only [arith, ofOp, compute, Op.int32?, hleft, hright, Value.ofInt32, Option.map_some]

end Stm

/-- A product that wraps around at each step is the whole product, wrapped around once. -/
theorem toInt_foldl_mul {p : Int32} {ws : List Int32} :
    (ws.foldl (· * ·) p).toInt = (p.toInt * (ws.map Int32.toInt).prod).bmod (2 ^ 32) := by
  induction ws generalizing p with
  | nil =>
    rw [List.foldl_nil, List.map_nil, List.prod_nil, Int.mul_one]
    exact (Int32.toInt_bmod p).symm
  | cons w ws ih =>
    rw [List.foldl_cons, ih, Int32.toInt_mul, Int.bmod_mul_bmod, List.map_cons, List.prod_cons,
      Int.mul_assoc]

/-! ### The product of the widths -/

section Widths

variable {product total : Operand} {widths : List Operand} {supply supply' : Supply}
  {stms : List Stm}

/-- One statement for each width. -/
theorem length_multiplyWidths
    (h : multiplyWidths product widths supply = .ok (stms, total) supply') :
    stms.length = widths.length := by
  induction widths generalizing product supply stms with
  | nil =>
    obtain ⟨heq, -⟩ := pure_eq_ok_iff.1 h
    cases heq
    rfl
  | cons w widths ih =>
    obtain ⟨rest, hrest, rfl⟩ := multiplyWidths_cons_eq_ok h
    rw [List.length_cons, List.length_cons, ih hrest]

/-- Each statement mentions widths, or the product so far, or what statements before it bind. -/
theorem multiplyWidths_reads {P : Name → Prop} (hproduct : ∀ m, product = .var m → P m)
    (hwidths : ∀ m, .var m ∈ widths → P m)
    (h : multiplyWidths product widths supply = .ok (stms, total) supply') {i : Nat} {s : Stm}
    (hs : stms[i]? = some s) :
    ∀ m ∈ s.mentions, P m ∨ m ∈ Stm.patternNames (stms.take i) := by
  induction widths generalizing product supply stms i P with
  | nil =>
    obtain ⟨heq, -⟩ := pure_eq_ok_iff.1 h
    cases heq
    cases hs
  | cons w widths ih =>
    obtain ⟨rest, hrest, rfl⟩ := multiplyWidths_cons_eq_ok h
    intro m hm
    cases i with
    | zero =>
      cases hs
      rcases Stm.mem_mentions_arith.1 hm with hleft | hright
      · exact Or.inl (hproduct m hleft)
      · exact Or.inl (hwidths m (hright ▸ List.mem_cons_self ..))
    | succ i =>
      -- What is left may mention the new name as well, which the first statement binds.
      have hnext := ih (P := fun m => P m ∨ m = ⟨"nesting_size", supply.next⟩)
        (fun m hm => by cases hm; exact Or.inr rfl)
        (fun m hm => Or.inl (hwidths m (List.mem_cons_of_mem _ hm))) hrest hs m hm
      rw [List.take_succ_cons, Stm.patternNames, List.flatMap_cons, List.mem_append]
      rcases hnext with (hm | rfl) | hm
      · exact Or.inl hm
      · exact Or.inr (Or.inl (List.mem_singleton_self _))
      · exact Or.inr (Or.inr hm)

/-- Running the statements gives the total the value of the product, and changes no name with an
earlier tag. -/
theorem multiplyWidths_computes {p : Int32} {ws : List Int32}
    (h : multiplyWidths product widths supply = .ok (stms, total) supply')
    (hold : ∀ m, .var m ∈ widths → m.tag < supply.next) (hproduct : product.eval ρ = .ofInt32 p)
    (hwidths : widths.map (Operand.eval ρ) = ws.map .ofInt32) :
    ∃ ρ', Stm.computeAll stms ρ = some ρ' ∧ (∀ m : Name, m.tag < supply.next → ρ' m = ρ m) ∧
      total.eval ρ' = .ofInt32 (ws.foldl (· * ·) p) := by
  induction widths generalizing product supply stms ρ p ws with
  | nil =>
    obtain ⟨heq, -⟩ := pure_eq_ok_iff.1 h
    cases heq
    rw [List.map_nil, eq_comm, List.map_eq_nil_iff] at hwidths
    subst hwidths
    exact ⟨ρ, rfl, fun m _ => rfl, hproduct⟩
  | cons w widths ih =>
    obtain ⟨rest, hrest, rfl⟩ := multiplyWidths_cons_eq_ok h
    rw [List.map_cons, eq_comm, List.map_eq_cons_iff] at hwidths
    obtain ⟨a, ws, rfl, hw, hwidths⟩ := hwidths
    -- The new name holds the product so far, and what was there before is as it was.
    let σ := ρ.bind ⟨"nesting_size", supply.next⟩ (.ofInt32 (p * a))
    have hstep : (Stm.arith .mul ⟨"nesting_size", supply.next⟩ .i32 product w).compute ρ = some σ :=
      Stm.compute_arith hproduct hw.symm
    have hnew : (Operand.var ⟨"nesting_size", supply.next⟩).eval σ = .ofInt32 (p * a) :=
      Env.bind_self
    have hsame : ∀ m : Name, m.tag < supply.next → σ m = ρ m := by
      intro m hm
      refine Env.bind_of_ne ?_
      rintro rfl
      exact absurd hm (Nat.lt_irrefl _)
    have hleft : ∀ m, .var m ∈ widths → m.tag < supply.next := fun m hm =>
      hold m (List.mem_cons_of_mem _ hm)
    have hkept : widths.map (Operand.eval σ) = ws.map .ofInt32 := by
      rw [hwidths]
      exact List.map_congr_left fun v hv => Operand.eval_congr fun m hm =>
        hsame m (hleft m (hm ▸ hv))
    obtain ⟨ρ', hrun, hunchanged, htotal⟩ :=
      ih hrest (fun m hm => Nat.lt_succ_of_lt (hleft m hm)) hnew hkept
    refine ⟨ρ', ?_, fun m hm => ?_, htotal⟩
    · rw [Stm.computeAll, hstep, Option.bind_some]
      exact hrun
    · rw [hunchanged m (Nat.lt_succ_of_lt hm), hsame m hm]

end Widths

/-! ### The theorem -/

/-- The number of points of a kernel is the product of the widths of its nest, wrapped around at 32
bits. The nest is made into a kernel if the body yields a value for each array and there are tags
enough. In front of the kernel stands one statement less than there are levels, and each reads only
widths and what the statements before it bind. The space of the kernel lists the index and the width
of each level, the outermost first. Whatever integers the widths stand for, the statements run, no
name from before changes its value, and the width of the kernel stands for the product. -/
theorem KernelNest.flatten_width {nest : KernelNest} {body : Body} {supply : Supply}
    (hold : ∀ m, .var m ∈ nest.widths → m.tag < supply.next) :
    (body.result.length = nest.inner.pattern.length →
      supply.next + nest.depth ≤ Supply.lastTag →
      ∃ flat supply', nest.flatten body supply = .ok flat supply') ∧
    ∀ flat supply', nest.flatten body supply = .ok flat supply' →
      flat.prelude.length + 1 = nest.depth ∧
      (∀ i s, flat.prelude[i]? = some s → ∀ m ∈ s.mentions,
        .var m ∈ nest.widths ∨ m ∈ Stm.patternNames (flat.prelude.take i)) ∧
      ∃ k, flat.stm.exp = .kernel k ∧ k.space = nest.toList.map (fun l => ⟨l.index, l.width⟩) ∧
        ∀ (ρ : Env) (ws : List Int32), nest.widths.map (Operand.eval ρ) = ws.map .ofInt32 →
          ∃ ρ', Stm.computeAll flat.prelude ρ = some ρ' ∧
            (∀ m : Name, m.tag < supply.next → ρ' m = ρ m) ∧
            ∃ total, k.width.eval ρ' = .ofInt32 total ∧
              total.toInt = (ws.map Int32.toInt).prod.bmod (2 ^ 32) := by
  refine ⟨exists_flatten_eq_ok, fun flat supply' h => ?_⟩
  obtain ⟨width, thread, s, hproduct, -, -, hstm⟩ := flatten_eq_ok h
  obtain ⟨rest, hlevels⟩ := nest.exists_toList_eq_cons
  have hwidths : nest.widths = nest.outermost.width :: nest.widths.tail := by
    rw [widths, hlevels, List.map_cons, List.tail_cons]
  have htail : ∀ m, .var m ∈ nest.widths.tail → .var m ∈ nest.widths := fun m hm =>
    List.mem_of_mem_tail hm
  refine ⟨?_, ?_, nest.kernel body width thread, by rw [hstm], rfl, ?_⟩
  · rw [length_multiplyWidths hproduct]
    simp [widths, Stack.depth]
  · intro i s hs
    refine multiplyWidths_reads (P := fun m => .var m ∈ nest.widths) (fun m hm => ?_) htail hproduct
      hs
    rw [hwidths, hm]
    exact List.mem_cons_self ..
  · intro ρ ws hws
    rw [hwidths, List.map_cons, eq_comm, List.map_eq_cons_iff] at hws
    obtain ⟨p, ws, rfl, hp, hws⟩ := hws
    obtain ⟨ρ', hrun, hsame, htotal⟩ := multiplyWidths_computes hproduct
      (fun m hm => hold m (htail m hm)) hp.symm hws.symm
    refine ⟨ρ', hrun, hsame, _, htotal, ?_⟩
    rw [toInt_foldl_mul, List.map_cons, List.prod_cons]

/-! Three levels, of 65536, 65537 and 3 iterations, two of them given by names. The first product
does not fit: 65536 times 65537 leaves 65536 modulo 2 ^ 32. -/

namespace Wrapping

/-- A level of some width. -/
def level (tag : Nat) (width : Operand) : Level :=
  ⟨[⟨⟨"ys", tag⟩, .array .i32 [width] false⟩], [], width, ⟨"i", tag + 1⟩, []⟩

/-- The levels. -/
def nest : KernelNest :=
  ⟨[level 2 (.var ⟨"n", 0⟩), level 4 (.ofInt32 65537)], level 6 (.var ⟨"m", 1⟩)⟩

/-- The body at their heart. -/
def body : Body := .yield [.ofInt32 1]

/-- The two names have their values, all others some value. -/
def env : Env :=
  Env.bind (Env.bind (fun _ => default) ⟨"n", 0⟩ (.ofInt32 65536)) ⟨"m", 1⟩ (.ofInt32 3)

end Wrapping

/-- The width of this kernel is 196608, three times what is left of the first product. -/
theorem KernelNest.flatten_width_wrapping :
    (∀ m, .var m ∈ Wrapping.nest.widths → m.tag < 8) ∧
      ∃ flat supply' k ρ', Wrapping.nest.flatten Wrapping.body ⟨8⟩ = .ok flat supply' ∧
        flat.stm.exp = .kernel k ∧ flat.prelude.length = 2 ∧
        Stm.computeAll flat.prelude Wrapping.env = some ρ' ∧
        k.width.eval ρ' = .ofInt32 196608 := by
  have hold : ∀ m, .var m ∈ Wrapping.nest.widths → m.tag < 8 := by
    intro m hm
    obtain rfl | rfl : m = ⟨"n", 0⟩ ∨ m = ⟨"m", 1⟩ := by
      simpa [Wrapping.nest, Wrapping.level, widths, Stack.toList, Operand.ofInt32] using hm
    · decide
    · decide
  have hflatten := @KernelNest.flatten_width Wrapping.nest Wrapping.body ⟨8⟩ hold
  obtain ⟨flat, supply', h⟩ := hflatten.1 rfl (by decide)
  obtain ⟨hlength, -, k, hk, -, hcomputes⟩ := hflatten.2 flat supply' h
  obtain ⟨ρ', hrun, -, total, htotal, hprod⟩ := hcomputes Wrapping.env [65536, 65537, 3] rfl
  obtain rfl : total = 196608 := by
    rw [← Int32.toInt_inj, hprod]
    decide
  exact ⟨hold, flat, supply', k, ρ', h, hk, Nat.succ.inj hlength, hrun, htotal⟩

end MapNest
