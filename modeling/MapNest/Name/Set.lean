import MapNest.Name.Basic

/-!
# `MapNest.Name.Set`: ordered sets of names

A `NameSet` is a strictly increasing list of names, so a set has one representation
(`NameSet.ext`) and its members are listed in the order of names. A set is seen through `∈`: each
operation has one lemma that says which names it holds.
-/

set_option autoImplicit false

namespace MapNest

/-- A finite set of names, kept in increasing order. -/
structure NameSet where
  /-- The members in increasing order. -/
  toList : List Name
  /-- Every member is less than each later one. -/
  sorted : toList.Pairwise (· < ·) := by simp
deriving DecidableEq

namespace NameSet

instance : EmptyCollection NameSet where
  emptyCollection := { toList := [] }

instance : Inhabited NameSet := ⟨∅⟩

instance : Membership Name NameSet where
  mem s n := n ∈ s.toList

/-- The members of a set are those listed. -/
theorem mem_iff {n : Name} {s : NameSet} : n ∈ s ↔ n ∈ s.toList := Iff.rfl

/-- Listing a set loses no member. As a simp rule, it hides the list. -/
@[simp] theorem mem_toList {n : Name} {s : NameSet} : n ∈ s.toList ↔ n ∈ s := Iff.rfl

instance (n : Name) (s : NameSet) : Decidable (n ∈ s) :=
  inferInstanceAs (Decidable (n ∈ s.toList))

/-- The empty set has no member. -/
@[simp] theorem not_mem_empty {n : Name} : n ∉ (∅ : NameSet) := List.not_mem_nil

/-- The list is increasing, so it names no member twice. -/
theorem nodup_toList (s : NameSet) : s.toList.Nodup := by
  refine s.sorted.imp ?_
  rintro a b hlt rfl
  exact Name.lt_irrefl a hlt

/-- Places a name into an increasing list, which stays as it is if it holds the name. -/
def place (n : Name) : List Name → List Name
  | [] => [n]
  | m :: ms => if n < m then n :: m :: ms else if n = m then m :: ms else m :: place n ms

/-- Placing a name adds it and loses no other. -/
theorem mem_place {n m : Name} {l : List Name} : m ∈ place n l ↔ m = n ∨ m ∈ l := by
  induction l with
  | nil => simp [place]
  | cons a l ih =>
    simp only [place]
    split
    · simp
    · split
      · rename_i h
        subst h
        simp
      · simp only [List.mem_cons, ih]
        constructor <;> rintro (h | h | h) <;> simp [h]

/-- A list stays increasing when a name is placed into it. -/
theorem pairwise_place {n : Name} {l : List Name} (h : l.Pairwise (· < ·)) :
    (place n l).Pairwise (· < ·) := by
  induction l with
  | nil => simp [place]
  | cons a l ih =>
    obtain ⟨ha, hl⟩ := List.pairwise_cons.1 h
    simp only [place]
    split
    · rename_i hn
      refine List.pairwise_cons.2 ⟨fun m hm => ?_, h⟩
      rcases List.mem_cons.1 hm with rfl | hm
      · exact hn
      · exact Name.lt_trans hn (ha m hm)
    · split
      · exact h
      · rename_i hlt hne
        refine List.pairwise_cons.2 ⟨fun m hm => ?_, ih hl⟩
        rcases mem_place.1 hm with rfl | hm
        · rcases Name.lt_trichotomy a m with h' | h' | h'
          · exact h'
          · exact absurd h'.symm hne
          · exact absurd h' hlt
        · exact ha m hm

/-- Adds a name. -/
def insert (n : Name) (s : NameSet) : NameSet where
  toList := place n s.toList
  sorted := pairwise_place s.sorted

/-- Inserting adds one name. -/
@[simp] theorem mem_insert {n m : Name} {s : NameSet} : m ∈ s.insert n ↔ m = n ∨ m ∈ s :=
  mem_place

/-- The names of a list. -/
def ofList (l : List Name) : NameSet := l.foldr insert ∅

/-- A set holds the names of the list that it is made of. -/
@[simp] theorem mem_ofList {n : Name} {l : List Name} : n ∈ ofList l ↔ n ∈ l := by
  induction l with
  | nil => simp [ofList]
  | cons a l ih => rw [ofList, List.foldr_cons, mem_insert, List.mem_cons, ← ofList, ih]

/-- The set with one member. -/
instance : Singleton Name NameSet where
  singleton n := ofList [n]

/-- The set of one name. -/
@[simp] theorem mem_singleton {n m : Name} : m ∈ ({n} : NameSet) ↔ m = n := by
  show m ∈ ofList [n] ↔ m = n
  simp

/-- Keeps the members that satisfy a test. -/
def filter (p : Name → Bool) (s : NameSet) : NameSet where
  toList := s.toList.filter p
  sorted := s.sorted.filter p

/-- Filtering keeps the members that pass. -/
@[simp] theorem mem_filter {n : Name} {p : Name → Bool} {s : NameSet} :
    n ∈ s.filter p ↔ n ∈ s ∧ p n = true :=
  List.mem_filter

instance : Union NameSet where
  union s t := s.toList.foldr insert t

/-- The union holds the members of both. -/
@[simp] theorem mem_union {n : Name} {s t : NameSet} : n ∈ s ∪ t ↔ n ∈ s ∨ n ∈ t := by
  show n ∈ s.toList.foldr insert t ↔ n ∈ s.toList ∨ n ∈ t
  induction s.toList with
  | nil => simp
  | cons a l ih => rw [List.foldr_cons, mem_insert, ih, List.mem_cons, or_assoc]

instance : Inter NameSet where
  inter s t := s.filter (· ∈ t)

/-- The intersection holds what is in both. -/
@[simp] theorem mem_inter {n : Name} {s t : NameSet} : n ∈ s ∩ t ↔ n ∈ s ∧ n ∈ t := by
  show n ∈ s.filter (· ∈ t) ↔ _
  simp

instance : SDiff NameSet where
  sdiff s t := s.filter (· ∉ t)

/-- The difference holds what is in the first set and not in the second. -/
@[simp] theorem mem_sdiff {n : Name} {s t : NameSet} : n ∈ s \ t ↔ n ∈ s ∧ n ∉ t := by
  show n ∈ s.filter (· ∉ t) ↔ _
  simp

/-- A name that neither the difference nor the second set holds is not in the first. -/
theorem not_mem_of_sdiff {n : Name} {s : NameSet} {l : List Name} (h : n ∉ s \ ofList l)
    (hl : n ∉ l) : n ∉ s := by
  simpa [hl] using h

/-- The members of some set of the list. -/
def unions (l : List NameSet) : NameSet := l.foldr (· ∪ ·) ∅

/-- The union of a list of sets holds what one of them holds. -/
@[simp] theorem mem_unions {n : Name} {l : List NameSet} : n ∈ unions l ↔ ∃ s ∈ l, n ∈ s := by
  induction l with
  | nil => simp [unions]
  | cons a l ih => rw [unions, List.foldr_cons, mem_union, ← unions, ih]; simp

/-- Two increasing lists with the same members are equal. -/
theorem eq_of_pairwise_of_mem_iff {l₁ l₂ : List Name} (h₁ : l₁.Pairwise (· < ·))
    (h₂ : l₂.Pairwise (· < ·)) (h : ∀ n, n ∈ l₁ ↔ n ∈ l₂) : l₁ = l₂ := by
  induction l₁ generalizing l₂ with
  | nil =>
    cases l₂ with
    | nil => rfl
    | cons b l₂ => exact absurd ((h b).2 (by simp)) (by simp)
  | cons a l₁ ih =>
    cases l₂ with
    | nil => exact absurd ((h a).1 (by simp)) (by simp)
    | cons b l₂ =>
      obtain ⟨ha, hl₁⟩ := List.pairwise_cons.1 h₁
      obtain ⟨hb, hl₂⟩ := List.pairwise_cons.1 h₂
      -- The least members agree: each is a member of the other list.
      have hab : a = b := by
        rcases List.mem_cons.1 ((h a).1 (by simp)) with e | hm
        · exact e
        · rcases List.mem_cons.1 ((h b).2 (by simp)) with e | hm'
          · exact e.symm
          · exact absurd (ha b hm') (Name.lt_asymm (hb a hm))
      subst hab
      refine congrArg (a :: ·) (ih hl₁ hl₂ fun n => ⟨fun hn => ?_, fun hn => ?_⟩)
      · rcases List.mem_cons.1 ((h n).1 (by simp [hn])) with rfl | hm
        · exact absurd (ha n hn) (Name.lt_irrefl n)
        · exact hm
      · rcases List.mem_cons.1 ((h n).2 (by simp [hn])) with rfl | hm
        · exact absurd (hb n hn) (Name.lt_irrefl n)
        · exact hm

/-- A set is determined by its members. -/
theorem ext {s t : NameSet} (h : ∀ n, n ∈ s ↔ n ∈ t) : s = t := by
  obtain ⟨l₁, h₁⟩ := s
  obtain ⟨l₂, h₂⟩ := t
  have : l₁ = l₂ := eq_of_pairwise_of_mem_iff h₁ h₂ h
  subst this
  rfl

example : (ofList [⟨"a", 10⟩, ⟨"ab", 1⟩, ⟨"a", 9⟩, ⟨"B", 1⟩, ⟨"a", 10⟩]).toList =
    [⟨"B", 1⟩, ⟨"a", 9⟩, ⟨"a", 10⟩, ⟨"ab", 1⟩] := by
  decide

end NameSet

end MapNest
