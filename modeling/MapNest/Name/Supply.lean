import MapNest.Failure

/-!
# `MapNest.Name.Supply`: fresh names

A `Supply` is a counter: each fresh name takes the counter as its tag, and the counter moves on by
one. Tags are 32-bit numbers, and the counter stops at the last of them, so the name with the last
tag is never handed out and asking for it fails with `Failure.overflow`, the counter staying where
it is.

Names are drawn in `FreshM`. An action that fails keeps the counter that it reached.
`Supply.fresh_eq_ok_iff` says when a name is handed out, and which.
-/

set_option autoImplicit false

namespace MapNest

/-- A supply of fresh names: all tags from `next` on are unused. -/
@[ext] structure Supply where
  /-- The tag of the next fresh name. -/
  next : Nat := 0
deriving DecidableEq

/-- Computations that draw fresh names. -/
abbrev FreshM := EStateM Failure Supply

namespace Supply

/-- The largest 32-bit number. A supply that has reached it is exhausted. -/
def lastTag : Nat := Nat.pow 2 32 - 1

/-- The supply whose names are above all names of a list. There is none if a name of the list has
the last tag. -/
def above (names : List Name) : Except Failure Supply :=
  match (names.map (·.tag)).max? with
  | none => .ok {}
  | some tag => if tag < lastTag then .ok { next := tag + 1 } else .error .overflow

/-- Draws a name with the given base. -/
def fresh (base : String) : FreshM Name := fun supply =>
  if supply.next < lastTag then .ok ⟨base, supply.next⟩ { next := supply.next + 1 }
  else .error .overflow supply

/-- Draws a name with the base of another. -/
def freshLike (name : Name) : FreshM Name := fresh name.base

/-- Draws a name whose base is that of another, followed by a suffix. -/
def freshSuffixed (name : Name) (suffix : String) : FreshM Name := fresh (name.base ++ suffix)

/-- A name is handed out exactly if the next tag is not the last one. It has that tag, and the
supply moves on by one. -/
theorem fresh_eq_ok_iff {base : String} {n : Name} {s s' : Supply} :
    fresh base s = .ok n s' ↔
      s.next < lastTag ∧ n = ⟨base, s.next⟩ ∧ s' = { next := s.next + 1 } := by
  unfold fresh
  split
  · rename_i h
    simp [h, eq_comm]
  · rename_i h
    simp [h]

/-- Drawing a name fails exactly if the supply is exhausted, which it remains. -/
theorem fresh_eq_error_iff {base : String} {e : Failure} {s s' : Supply} :
    fresh base s = .error e s' ↔ ¬ s.next < lastTag ∧ e = .overflow ∧ s' = s := by
  unfold fresh
  split
  · rename_i h
    simp [h]
  · rename_i h
    simp [h, eq_comm]

end Supply

end MapNest
