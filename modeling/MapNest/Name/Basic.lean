/-!
# `MapNest.Name.Basic`: tagged names

Every value of a program has a `Name`: a readable base and a numeric tag. Two names are the same
when both parts agree, so a base may be shared by any number of values. Names are ordered by base
and, within one base, by tag; whatever is listed from a set of names is listed in that order
(`MapNest.Name.Set`), which makes the output of every pass reproducible.
-/

set_option autoImplicit false

namespace MapNest

/-- A name of the program: a readable base, and a tag that tells names of one base apart. -/
@[ext] structure Name where
  /-- The readable part. -/
  base : String
  /-- The number that tells this name from others of its base. -/
  tag : Nat
deriving DecidableEq, Inhabited

namespace Name

/-- The base, an underscore and the tag. -/
def text (n : Name) : String := n.base ++ "_" ++ toString n.tag

/-- Names are ordered by base, by code points, and within one base by tag. -/
instance : LT Name where
  lt a b := a.base < b.base ∨ (a.base = b.base ∧ a.tag < b.tag)

/-- Names are ordered by their bases, and by their tags where these agree. -/
theorem lt_iff {a b : Name} : a < b ↔ a.base < b.base ∨ (a.base = b.base ∧ a.tag < b.tag) :=
  Iff.rfl

instance (a b : Name) : Decidable (a < b) :=
  decidable_of_iff _ lt_iff.symm

/-- No name is less than itself. -/
theorem lt_irrefl (a : Name) : ¬ a < a := fun h =>
  (lt_iff.1 h).elim (String.lt_irrefl a.base) fun ht => Nat.lt_irrefl a.tag ht.2

/-- The order is transitive. -/
theorem lt_trans {a b c : Name} (hab : a < b) (hbc : b < c) : a < c := by
  rcases lt_iff.1 hab with h | ⟨h, ht⟩ <;> rcases lt_iff.1 hbc with h' | ⟨h', ht'⟩
  · exact lt_iff.2 (.inl (String.lt_trans h h'))
  · exact lt_iff.2 (.inl (h' ▸ h))
  · exact lt_iff.2 (.inl (h ▸ h'))
  · exact lt_iff.2 (.inr ⟨h.trans h', by omega⟩)

/-- Of two names at most one is less than the other. -/
theorem lt_asymm {a b : Name} (hab : a < b) : ¬ b < a :=
  fun hba => lt_irrefl a (lt_trans hab hba)

/-- The order is total: of two distinct names one is less. -/
theorem lt_trichotomy (a b : Name) : a < b ∨ a = b ∨ b < a := by
  rcases Std.lt_trichotomy a.base b.base with h | h | h
  · exact .inl (lt_iff.2 (.inl h))
  · rcases Nat.lt_trichotomy a.tag b.tag with ht | ht | ht
    · exact .inl (lt_iff.2 (.inr ⟨h, ht⟩))
    · exact .inr (.inl (Name.ext h ht))
    · exact .inr (.inr (lt_iff.2 (.inr ⟨h.symm, ht⟩)))
  · exact .inr (.inr (lt_iff.2 (.inl h)))

end Name

end MapNest
