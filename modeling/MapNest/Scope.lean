import MapNest.Analysis.Bound

/-!
# `MapNest.Scope`: the types of the names in scope

A `Scope` gives names their types. It is seen through `Scope.lookup?`: an inserted name has the
type it was inserted with last, and every other name keeps what it had.
-/

set_option autoImplicit false

namespace MapNest

/-- A table of types, one for each name it knows. -/
structure Scope where
  /-- The names with their types. -/
  binders : List Binder := []
  /-- No name is listed twice. -/
  nodup : (binders.map (·.name)).Nodup := by simp

namespace Scope

instance : EmptyCollection Scope where
  emptyCollection := {}

instance : Inhabited Scope := ⟨∅⟩

/-- The type of a name. -/
def lookup? (s : Scope) (n : Name) : Option Ty :=
  (s.binders.find? (·.name = n)).map (·.ty)

/-- The name has a type. -/
def contains (s : Scope) (n : Name) : Bool := (s.lookup? n).isSome

/-- The number of names with a type. -/
def size (s : Scope) : Nat := s.binders.length

/-- No name has a type. -/
def isEmpty (s : Scope) : Bool := s.binders.isEmpty

/-- Gives a name a type in place of the one it may have had. -/
def insert (s : Scope) (b : Binder) : Scope where
  binders := b :: s.binders.filter (·.name ≠ b.name)
  nodup := by
    rw [List.map_cons, List.nodup_cons]
    refine ⟨by simp, ?_⟩
    exact s.nodup.sublist (List.filter_sublist.map _)

/-- Inserts binders in order, a later one replacing an earlier one of the same name. -/
def insertAll (s : Scope) (l : List Binder) : Scope := l.foldl insert s

/-- Inserts every name bound anywhere in a statement. -/
def insertStm (s : Scope) (stm : Stm) : Scope := s.insertAll stm.binders

/-- Inserts every name bound anywhere in a body. -/
def insertBody (s : Scope) (body : Body) : Scope := s.insertAll body.binders

/-- Nothing is in scope at first. -/
@[simp] theorem lookup?_empty {n : Name} : (∅ : Scope).lookup? n = none := rfl

/-- The type given last counts. -/
@[simp] theorem lookup?_insert_self {s : Scope} {b : Binder} :
    (s.insert b).lookup? b.name = some b.ty := by
  simp [lookup?, insert]

/-- Other names keep their types. -/
theorem lookup?_insert_of_ne {s : Scope} {b : Binder} {n : Name} (h : b.name ≠ n) :
    (s.insert b).lookup? n = s.lookup? n := by
  have hp : (fun c : Binder =>
        decide (decide (c.name ≠ b.name) = true ∧ decide (c.name = n) = true)) =
      fun c : Binder => decide (c.name = n) := by
    funext c
    by_cases hc : c.name = n
    · subst hc
      simp [Ne.symm h]
    · simp [hc]
  rw [lookup?, insert, List.find?_cons_of_neg (by simpa using h), List.find?_filter, hp, lookup?]

end Scope

end MapNest
