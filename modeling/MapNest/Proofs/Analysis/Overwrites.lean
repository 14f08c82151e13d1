import Mathlib.Logic.Basic
import Mathlib.Logic.Relation
import MapNest.Proofs.Analysis.Consumed
import MapNest.Proofs.Analysis.Parts

/-!
# `MapNest.Proofs.Analysis.Overwrites`: every update is seen from outside

An update in place overwrites the array it starts from. If this is a parameter, it stands for part
of another array: a row of the array that a map or a kernel reads, or the value that a loop starts
with. So the update overwrites that one as well, and what that one stands for in turn, until a name
is reached that is bound nowhere inside. `Stm.overwrites_consumed` says that the analysis finds this
name, provided that all parameters on the way are unique, and that it finds nothing that is neither
updated nor given to a unique parameter.

The way need not be followed through every construct. What is given to a unique parameter is
consumed whether or not it is overwritten there, so only the last step of the way counts; and what
one part of an expression consumes, the whole consumes unless it binds the name
(`Exp.mem_consumed_of_mem_parts`). So it does not matter either whether the construct of a step
stands around the update.
-/

set_option autoImplicit false

namespace MapNest

variable {n : Name} {e p : Exp}

namespace Exp

/-- The array that an update starts from. -/
def source? : Exp → Option Name
  | .update _ source _ _ => some source
  | _ => none

/-- What an expression gives to its parameters: the arrays of which they are parts, or the values
that carried ones start with. -/
def gives : Exp → List (Binder × Operand)
  | .op _ => []
  | .update _ _ _ _ => []
  | .loop l => l.merge.map fun m => (m.param, m.init)
  | .map _ _ function arrays => function.params.zip (arrays.map .var)
  | .kernel k => k.inputs.map fun i => (i.param, .var i.array)

/-- The names that an expression itself may overwrite: the array that it updates, and those given to
its unique parameters. -/
def taken (e : Exp) : List Name :=
  e.source?.toList ++ Operand.names ((e.gives.filter (·.1.ty.isUnique)).map (·.2))

/-- Somewhere inside an expression a name is given to a unique parameter. -/
def Lends (e : Exp) (param given : Name) : Prop :=
  ∃ p ∈ e.parts, ∃ g ∈ p.gives, g.1.name = param ∧ g.1.ty.isUnique = true ∧ g.2 = .var given

instance (param given : Name) : Decidable (e.Lends param given) :=
  inferInstanceAs (Decidable (∃ p ∈ e.parts, ∃ g ∈ p.gives, _))

/-- An expression may overwrite the source of its update, and what its unique parameters take. -/
theorem mem_taken :
    n ∈ e.taken ↔ e.source? = some n ∨ ∃ g ∈ e.gives, g.1.ty.isUnique = true ∧ g.2 = .var n := by
  simp only [taken, List.mem_append, Option.mem_toList, Operand.mem_names, List.mem_map,
    List.mem_filter, and_assoc]

/-- A map gives each array to the parameter at its place. -/
theorem mem_gives_map {checks : List Name} {width : Operand} {function : Lambda}
    {arrays : List Name} {b : Binder} :
    (b, .var n) ∈ (Exp.map checks width function arrays).gives ↔
      (b, n) ∈ function.params.zip arrays := by
  rw [gives, List.zip_map_right, List.mem_map]
  simp [Prod.ext_iff]

/-- An expression consumes what it takes itself, and what the statements directly inside consume,
but for its parameters. -/
theorem mem_consumed_iff :
    n ∈ e.consumed ↔ n ∈ e.taken ∨
      (n ∈ Stm.consumedAll e.inside ∧ n ∉ Pattern.names e.params) := by
  rw [mem_taken]
  cases e with
  | op o => simp [consumed, source?, gives, inside]
  | update checks source indices value =>
    simp only [consumed, NameSet.mem_singleton, source?, Option.some.injEq, eq_comm (a := n)]
    simp [gives, inside]
  | loop l =>
    simp only [consumed, Loop.mem_consumed, Body.consumed_eq, source?, gives, inside, params,
      Loop.names_params, reduceCtorEq, false_or, List.mem_map, exists_exists_and_eq_and, or_comm]
  | map checks width function arrays =>
    have hgives : ∀ b : Binder, (b, n) ∈ function.params.zip arrays ↔
        (b, .var n) ∈ (Exp.map checks width function arrays).gives := fun _ => mem_gives_map.symm
    simp only [consumed, Lambda.mem_consumed, Body.consumed_eq, source?, inside, params,
      reduceCtorEq, false_or, hgives]
    grind
  | kernel k =>
    have hparams : n ∉ Pattern.names (k.inputs.map (·.param)) ↔
        ∀ i ∈ k.inputs, i.param.name ≠ n := by
      simp [Pattern.names]
    simp only [consumed, Kernel.mem_consumed, Body.consumed_eq, source?, gives, inside, params,
      reduceCtorEq, false_or, List.mem_map, exists_exists_and_eq_and, Operand.var.injEq, hparams]
    grind

/-- What a part of an expression takes, the expression consumes, unless it binds it. -/
theorem mem_consumed_of_mem_parts (hp : p ∈ e.parts) (htaken : n ∈ p.taken)
    (hn : n ∉ Pattern.names e.binders) : n ∈ e.consumed := by
  induction e using Exp.induction with
  | within e ih =>
    rw [mem_names_binders_iff, not_or, not_or, not_exists] at hn
    obtain ⟨hparams, -, hinside⟩ := hn
    rw [mem_consumed_iff]
    rcases mem_parts.1 hp with rfl | ⟨s, hs, hp⟩
    · exact Or.inl htaken
    · -- No statement binds the name, neither the one that holds the part nor any other.
      refine Or.inr ⟨Stm.mem_consumedAll.2 ⟨⟨s, hs, ih s hs hp fun hbinder => ?_⟩, ?_⟩, hparams⟩
      · refine hinside s ⟨hs, ?_⟩
        rw [Stm.binders, Pattern.names_append]
        exact List.mem_append_right _ hbinder
      · rw [Stm.mem_bound]
        rintro ⟨s', hs', b, hb, rfl⟩
        exact hinside s' ⟨hs', Pattern.mem_names.2 ⟨b, List.mem_append_left _ hb, rfl⟩⟩

/-- What an expression consumes, one of its parts takes. -/
theorem exists_mem_taken_of_mem_consumed (h : n ∈ e.consumed) : ∃ p ∈ e.parts, n ∈ p.taken := by
  induction e using Exp.induction with
  | within e ih =>
    rcases mem_consumed_iff.1 h with htaken | ⟨hinside, -⟩
    · exact ⟨e, self_mem_parts, htaken⟩
    · obtain ⟨⟨s, hs, hconsumed⟩, -⟩ := Stm.mem_consumedAll.1 hinside
      obtain ⟨p, hp, htaken⟩ := ih s hs hconsumed
      exact ⟨p, mem_parts.2 (Or.inr ⟨s, hs, hp⟩), htaken⟩

end Exp

/-- Follow the array that an update starts from, at any depth inside a statement, from one unique
parameter to what is given to it, and on from there. If this leads to a name that is not bound
inside, the statement consumes it. It consumes nothing else than arrays that are updated inside and
names that are given to unique parameters. -/
theorem Stm.overwrites_consumed {s : Stm} :
    (∀ checks source indices value, .update checks source indices value ∈ s.exp.parts →
      ∀ n, Relation.ReflTransGen s.exp.Lends source n → n ∉ Pattern.names s.exp.binders →
        n ∈ s.consumed) ∧
    ∀ n ∈ s.consumed, ∃ p ∈ s.exp.parts,
      p.source? = some n ∨ ∃ g ∈ p.gives, g.1.ty.isUnique = true ∧ g.2 = .var n := by
  constructor
  · intro checks source indices value hupdate n hway hn
    -- The name is the source itself, or it is reached by a last step.
    rcases Relation.ReflTransGen.cases_tail hway with rfl | ⟨m, -, p, hp, g, hg, -, hunique, heq⟩
    · exact Exp.mem_consumed_of_mem_parts hupdate (Exp.mem_taken.2 (Or.inl rfl)) hn
    · exact Exp.mem_consumed_of_mem_parts hp
        (Exp.mem_taken.2 (Or.inr ⟨g, hg, hunique, heq⟩)) hn
  · intro n hn
    obtain ⟨p, hp, htaken⟩ := Exp.exists_mem_taken_of_mem_consumed hn
    exact ⟨p, hp, Exp.mem_taken.1 htaken⟩

/-! An update within a loop, within a kernel, within a map. The way from `acc` leads over the part
that the loop starts with and the row that the kernel reads to the array of all rows:

    yss = map i < 2 (row <- xss, key <- keys):
      ys = kernel (j < 3) (x <- row[j]):
        r = loop (acc = x) for t < 4:
          u = acc with [0] <- key
          u
        r
      ys
-/

namespace Filling

/-- Unique arrays of integers in some dimensions. -/
def ints (dims : List Int32) : Ty := .array .i32 (dims.map .ofInt32) true

/-- The update. -/
def update : Exp := .update [] ⟨"acc", 9⟩ [.ofInt32 0] (.var ⟨"key", 5⟩)

/-- The loop around it. -/
def loop : Loop :=
  ⟨[⟨"acc", 9⟩], [⟨⟨⟨"acc", 9⟩, ints [4]⟩, .var ⟨"x", 8⟩⟩], .forBelow ⟨"t", 10⟩ (.ofInt32 4),
    .bind [⟨⟨"u", 11⟩, ints [4]⟩] update (.yield [.var ⟨"u", 11⟩])⟩

/-- The kernel around the loop. -/
def kernel : Kernel :=
  ⟨[], .ofInt32 3, ⟨"g", 6⟩, [⟨⟨"j", 7⟩, .ofInt32 3⟩],
    [⟨⟨⟨"x", 8⟩, ints [4]⟩, ⟨"row", 4⟩, [.var ⟨"j", 7⟩]⟩], [⟨ints [4], [0]⟩],
    .bind [⟨⟨"r", 12⟩, ints [4]⟩] (.loop loop) (.yield [.var ⟨"r", 12⟩])⟩

/-- The map around the kernel. -/
def stm : Stm :=
  ⟨[⟨⟨"yss", 0⟩, ints [2, 3, 4]⟩],
    .map [] (.ofInt32 2)
      ⟨⟨"i", 3⟩, [⟨⟨"row", 4⟩, ints [3, 4]⟩, ⟨⟨"key", 5⟩, .scalar .i32⟩],
        .bind [⟨⟨"ys", 13⟩, ints [3, 4]⟩] (.kernel kernel) (.yield [.var ⟨"ys", 13⟩]),
        [ints [3, 4]]⟩
      [⟨"xss", 1⟩, ⟨"keys", 2⟩]⟩

end Filling

/-- The update inside overwrites `xss`, which the map then consumes, but not `keys`. -/
theorem Stm.overwrites_consumed_filling :
    Filling.update ∈ Filling.stm.exp.parts ∧
      Relation.ReflTransGen Filling.stm.exp.Lends ⟨"acc", 9⟩ ⟨"xss", 1⟩ ∧
      ⟨"xss", 1⟩ ∉ Pattern.names Filling.stm.exp.binders ∧ ⟨"xss", 1⟩ ∈ Filling.stm.consumed ∧
      ⟨"keys", 2⟩ ∉ Filling.stm.consumed := by
  have hupdate : Filling.update ∈ Filling.stm.exp.parts := by decide
  have hway : Relation.ReflTransGen Filling.stm.exp.Lends ⟨"acc", 9⟩ ⟨"xss", 1⟩ := by
    refine .head (b := ⟨"x", 8⟩) (by decide) (.head (b := ⟨"row", 4⟩) (by decide) (.single ?_))
    decide
  have hbound : ⟨"xss", 1⟩ ∉ Pattern.names Filling.stm.exp.binders := by decide
  refine ⟨hupdate, hway, hbound, ?_, fun hkeys => ?_⟩
  · exact Stm.overwrites_consumed.1 _ _ _ _ hupdate _ hway hbound
  · obtain ⟨p, hp, htaken⟩ := Stm.overwrites_consumed.2 _ hkeys
    revert p
    decide

end MapNest
