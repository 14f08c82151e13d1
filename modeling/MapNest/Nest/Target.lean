import MapNest.Failure
import MapNest.Name.Set
import MapNest.Stack
import MapNest.Syntax.Text

/-!
# `MapNest.Nest.Target`: what the levels of a nest still have to produce

Every map of a nest binds arrays, and its body returns the values that become their rows. An
`Output` is one such array with the value returned into it, and a `Target` lists the outputs of one
level. While statements are moved out of the nest, the stack of targets says what is left to do at
each level.
-/

set_option autoImplicit false

namespace MapNest

/-- An array that a level binds, and the value that its body returns into it. -/
structure Output where
  /-- The array. -/
  binder : Binder
  /-- The value that becomes a row. -/
  value : Operand
deriving DecidableEq

/-- The outputs of one level. -/
abbrev Target := List Output

namespace Target

/-- Pairs the binders of a pattern with values, if there are as many. -/
def ofPattern (p : Pattern) (values : List Operand) : Except Failure Target :=
  if p.length = values.length then .ok ((p.zip values).map fun x => ⟨x.1, x.2⟩)
  else .error (.arityMismatch .target p.length values.length)

/-- The arrays of a target. -/
def pattern (t : Target) : Pattern := t.map (·.binder)

/-- The values of a target. -/
def values (t : Target) : List Operand := t.map (·.value)

/-- The value returned into the array of a name. -/
def value? (t : Target) (n : Name) : Option Operand :=
  (t.find? (·.binder.name = n)).map (·.value)

/-- A target has the arrays and the values that it is made of, in order. -/
theorem pattern_of_ofPattern_eq_ok {p : Pattern} {values : List Operand} {t : Target}
    (h : ofPattern p values = .ok t) : t.pattern = p ∧ t.values = values := by
  unfold ofPattern at h
  split at h
  · rename_i hl
    cases h
    simp only [pattern, Target.values, List.map_map]
    exact ⟨List.map_fst_zip (Nat.le_of_eq hl), List.map_snd_zip (Nat.le_of_eq hl.symm)⟩
  · cases h

end Target

/-- The targets of the levels of a nest. -/
abbrev Targets := Stack Target

namespace Targets

/-- The arrays of all levels. -/
def bound (ts : Targets) : NameSet :=
  .ofList (ts.toList.flatMap fun t => Pattern.names (Target.pattern t))

/-- The targets, a line each, every line starting at the given depth and numbered from the
outermost level. -/
def text (depth : Nat) (ts : Targets) : String :=
  "\n".intercalate (ts.toList.zipIdx.map fun (t, k) =>
    indentation depth ++ toString k ++ ": " ++ Pattern.text (Target.pattern t) ++ " <- " ++
      braced (Operand.listText (Target.values t)))

end Targets

end MapNest
