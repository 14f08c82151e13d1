import MapNest.Analysis.Free

/-!
# `MapNest.Loop.Basic`: loops as statements

A `LoopStm` is a loop with the pattern that its last values are bound to, the form in which loops
are moved. A pattern may bind any selection of the carried values, in any order.
-/

set_option autoImplicit false

namespace MapNest

/-- A loop bound to a pattern. -/
structure LoopStm where
  /-- The names bound. -/
  pattern : Pattern
  /-- The loop. -/
  loop : Loop
deriving DecidableEq

namespace LoopStm

/-- The loop of a statement, if it is one. -/
def ofStm? (s : Stm) : Option LoopStm :=
  match s.exp with
  | .loop l => some ⟨s.pattern, l⟩
  | _ => none

/-- The statement of a loop. -/
def toStm (l : LoopStm) : Stm := ⟨l.pattern, .loop l.loop⟩

/-- The binder of an operand among those of a loop, and the carried value it takes. -/
def bindingOf? (l : LoopStm) (v : Operand) : Option (Binder × Name) := do
  let position ← l.pattern.position? (← v.name?)
  return (← l.pattern[position]?, ← l.loop.ret[position]?)

/-- The loop that binds just the given operands, in their order, if they all are names that it
binds. -/
def select? (l : LoopStm) (values : List Operand) : Option LoopStm := do
  let bindings ← values.mapM l.bindingOf?
  return ⟨bindings.map (·.1), { l.loop with ret := bindings.map (·.2) }⟩

/-- A loop is found again in the statement made of it. -/
@[simp] theorem ofStm?_toStm {l : LoopStm} : ofStm? l.toStm = some l := rfl

/-- The loop of a statement makes up that statement. -/
theorem toStm_of_ofStm?_eq_some {s : Stm} {l : LoopStm} (h : ofStm? s = some l) : l.toStm = s := by
  obtain ⟨p, e⟩ := s
  cases e <;> simp [ofStm?] at h
  subst h
  rfl

end LoopStm

/-- The names that one iteration of a loop reads: those free in its body, and those in the types of
its carried values. -/
def Loop.reads (l : Loop) : NameSet :=
  l.body.free ∪ .ofList (Pattern.dimNames (l.merge.map (·.param)))

end MapNest
