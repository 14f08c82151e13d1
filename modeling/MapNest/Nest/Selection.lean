import MapNest.Analysis.Consumed
import MapNest.Analysis.Free
import MapNest.Nest.Target

/-!
# `MapNest.Nest.Selection`: statements chosen to be moved out of a nest

A `Selection` sums up some statements in the innermost body of a nest: what they read, what they
consume, and which outputs of the innermost level merely pass on a value that the statements do not
bind. Such a value is available without them, so its output is set aside (`Passed`); the array it
goes into carries the value across the level, and whoever needs the value outside may read it
there.
-/

set_option autoImplicit false

namespace MapNest

/-- An output that passes on a value bound elsewhere. -/
structure Passed where
  /-- The array that carries the value. -/
  carrier : Binder
  /-- The name of the value. -/
  name : Name
deriving DecidableEq

/-- The output that a passed value belongs to. -/
def Passed.output (p : Passed) : Output := ⟨p.carrier, .var p.name⟩

/-- What is known of the statements that are to be moved. -/
structure Selection where
  /-- The targets, without the outputs set aside at the innermost level. -/
  targets : Targets
  /-- The names that the statements read and do not bind. -/
  free : NameSet
  /-- The names that the statements consume. -/
  consumed : NameSet
  /-- The outputs set aside. -/
  passed : List Passed
deriving DecidableEq

/-- An output seen as passing on a value, if it does not return a name that is bound in a set. -/
def Output.passed? (bound : NameSet) (o : Output) : Option Passed :=
  match o.value with
  | .var n => if n ∈ bound then none else some ⟨o.binder, n⟩
  | .const _ => none

/-- An output that passes on a value is the output of what it passes on. -/
theorem Output.output_of_passed?_eq_some {bound : NameSet} {o : Output} {p : Passed}
    (h : o.passed? bound = some p) : p.output = o := by
  obtain ⟨b, v⟩ := o
  cases v with
  | const c => simp [passed?] at h
  | var n =>
    simp only [passed?] at h
    split at h
    · cases h
    · cases h
      rfl

namespace Selection

/-- Sums up some statements, given the targets of the nest around them. -/
def ofStms (targets : Targets) (stms : List Stm) : Selection :=
  let bound := Stm.bound stms
  { targets := targets.mapInner (List.filter fun o => (o.passed? bound).isNone)
    free := Stm.freeAll stms \ bound
    consumed := Stm.consumedAll stms
    passed := targets.inner.filterMap (Output.passed? bound) }

/-- The array that carries a value across the innermost level. -/
def carrier? (s : Selection) (n : Name) : Option Binder :=
  (s.passed.find? (·.name = n)).map (·.carrier)

/-- Puts the outputs set aside at the end of a target. -/
def restore (s : Selection) (t : Target) : Target := t ++ s.passed.map Passed.output

/-- Set aside or not, every output of the innermost level is accounted for. -/
theorem perm_restore_ofStms {targets : Targets} {stms : List Stm} :
    ((ofStms targets stms).restore (ofStms targets stms).targets.inner).Perm targets.inner := by
  show ((targets.inner.filter fun o => (o.passed? (Stm.bound stms)).isNone) ++
    (targets.inner.filterMap (Output.passed? (Stm.bound stms))).map Passed.output).Perm
      targets.inner
  induction targets.inner with
  | nil => exact .nil
  | cons o l ih =>
    cases h : o.passed? (Stm.bound stms) with
    | none =>
      rw [List.filter_cons_of_pos (by simp [h]), List.filterMap_cons_none h]
      exact ih.cons o
    | some p =>
      rw [List.filter_cons_of_neg (by simp [h]), List.filterMap_cons_some h, List.map_cons,
        Output.output_of_passed?_eq_some h]
      exact List.perm_middle.trans (ih.cons o)

end Selection

end MapNest
