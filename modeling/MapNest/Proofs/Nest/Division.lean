import Mathlib.Data.List.Nodup
import MapNest.Nest.Build
import MapNest.Proofs.Attempt

/-!
# `MapNest.Proofs.Nest.Division`: dividing the outputs of a level

`Division.ofTarget` goes through the outputs of a level one by one. `Division.add_cases` says all
that happens to one of them: it is taken if it returns an array of the level inside that none has
taken before, and it is kept otherwise. `Division.Divides` is what holds of the outputs gone through
so far; `Divides.take` and `Divides.keep` are the steps and `Division.divides_ofTarget` the run.

Together with the arrays that no output takes, the positions taken are all positions, each once
(`Divides.perm_positions`). Of the outputs that return one array of the level inside, all but one
are kept (`Divides.count_kept`).
-/

set_option autoImplicit false

namespace MapNest

/-! ### Positions in a pattern -/

namespace Pattern

variable {p q : Pattern} {n m : Name} {k : Nat}

/-- At the position of a name stands a binder of that name. -/
theorem getElem?_of_position?_eq_some (h : position? p n = some k) :
    ∃ b, p[k]? = some b ∧ b.name = n := by
  obtain ⟨hk, hname, -⟩ := List.findIdx?_eq_some_iff_getElem.1 h
  exact ⟨p[k], List.getElem?_eq_getElem hk, by simpa using hname⟩

/-- A name has no position exactly if the pattern does not bind it. -/
theorem position?_eq_none_iff : position? p n = none ↔ n ∉ names p := by
  simp [position?, List.findIdx?_eq_none_iff]

/-- Each name that a pattern binds has a position. -/
theorem exists_position?_eq_some (h : n ∈ names p) : ∃ k, position? p n = some k := by
  cases hk : position? p n with
  | none => exact absurd h (position?_eq_none_iff.1 hk)
  | some k => exact ⟨k, rfl⟩

/-- Two names are not at one position. -/
theorem eq_of_position?_eq_some (hn : position? p n = some k) (hm : position? p m = some k) :
    n = m := by
  obtain ⟨b, hb, rfl⟩ := getElem?_of_position?_eq_some hn
  obtain ⟨c, hc, rfl⟩ := getElem?_of_position?_eq_some hm
  rw [hb] at hc
  cases hc
  rfl

/-- If no name is bound twice, each one is found where it is. -/
theorem position?_of_getElem? (hnodup : (names p).Nodup) {b : Binder} (hb : p[k]? = some b) :
    position? p b.name = some k := by
  have hname : ∀ {i : Nat} {c : Binder}, p[i]? = some c → (names p)[i]? = some c.name := by
    intro i c hc
    rw [names, List.getElem?_map, hc]
    rfl
  obtain ⟨i, hi⟩ := exists_position?_eq_some (mem_names.2 ⟨b, List.mem_of_getElem? hb, rfl⟩)
  obtain ⟨c, hc, heq⟩ := getElem?_of_position?_eq_some hi
  -- Both places hold the same name, so they are one.
  have hlt : k < (names p).length := (List.getElem?_eq_some_iff.1 (hname hb)).1
  have hk : k = i := (List.getElem?_inj hlt hnodup).1 (by rw [hname hb, hname hc, heq])
  rw [hk, hi]

/-- What holds of the binders at the same places still does in another order. -/
theorem forall₂_permute {R : Binder → Binder → Prop} (h : List.Forall₂ R p q) (order : List Nat) :
    List.Forall₂ R (permute order p) (permute order q) := by
  induction order with
  | nil => exact .nil
  | cons k order ih =>
    have hk := rel_getElem? h k
    simp only [permute, List.filterMap_cons]
    generalize p[k]? = b at hk
    generalize q[k]? = c at hk
    cases hk with
    | none => exact ih
    | some hbc => exact .cons hbc ih

/-- Putting binders into an order brings in no others. -/
theorem mem_of_mem_permute {order : List Nat} {b : Binder} (h : b ∈ permute order p) : b ∈ p := by
  obtain ⟨k, -, hk⟩ := List.mem_filterMap.1 h
  exact List.mem_of_getElem? hk

/-- In an order that has every position once, no binder is lost. -/
theorem permute_perm {order : List Nat} (h : order.Perm (List.range p.length)) :
    (permute order p).Perm p := by
  -- One such order is that of the pattern itself.
  have hrange : (List.range p.length).filterMap (fun k => p[k]?) = p := by
    clear h
    induction p with
    | nil => rfl
    | cons b p ih =>
      rw [List.length_cons, List.range_succ_eq_map, List.filterMap_cons, List.filterMap_map]
      exact congrArg (b :: ·) ih
  have hperm := h.filterMap fun k => p[k]?
  rwa [hrange] at hperm

end Pattern

/-! ### One output after the other -/

/-- The position of the array that an output returns, among those of the level inside. -/
def Output.returned? (inner : Pattern) (o : Output) : Option Nat :=
  o.value.name?.bind (Pattern.position? inner)

/-- An output returns the array at a position exactly if its value is the name of that array. -/
theorem Output.returned?_eq_some_iff {inner : Pattern} {o : Output} {k : Nat} :
    o.returned? inner = some k ↔ ∃ n, o.value = .var n ∧ Pattern.position? inner n = some k := by
  simp [returned?, Option.bind_eq_some_iff]

/-- One more output counts once for the value that it returns. -/
theorem Target.count_values_concat {t : Target} {o : Output} {v : Operand} :
    (Target.values (t ++ [o])).count v
      = (Target.values t).count v + if o.value = v then 1 else 0 := by
  simp [Target.values, List.count_append, List.count_singleton]

namespace Division

variable {inner : Pattern} {d : Division} {t : Target} {o : Output} {n : Name}

/-- An output is taken if it returns an array that none has taken before; otherwise it is kept. -/
theorem add_cases (inner : Pattern) (d : Division) (o : Output) :
    (∃ k, o.returned? inner = some k ∧ k ∉ d.positions ∧
        add inner d o = { d with taken := d.taken ++ [⟨k, o.binder⟩] }) ∨
      ((∀ k, o.returned? inner = some k → k ∈ d.positions) ∧
        add inner d o = { d with kept := d.kept ++ [o] }) := by
  unfold add
  cases hk : o.value.name?.bind (Pattern.position? inner) with
  | none =>
    refine Or.inr ⟨fun k hk' => ?_, rfl⟩
    rw [Output.returned?, hk] at hk'
    cases hk'
  | some k =>
    by_cases htaken : k ∈ d.positions
    · refine Or.inr ⟨fun k' hk' => ?_, if_pos htaken⟩
      rw [Output.returned?, hk] at hk'
      cases hk'
      exact htaken
    · exact Or.inl ⟨k, hk, htaken, if_neg htaken⟩

/-- What holds of some outputs that have been divided. -/
structure Divides (inner : Pattern) (t : Target) (d : Division) : Prop where
  /-- Every array is taken over or stays, and no other does. -/
  perm : (d.taken.map (·.binder) ++ Target.pattern d.kept).Perm (Target.pattern t)
  /-- What is taken returns the array at its position. -/
  taken : ∀ x ∈ d.taken, ∃ b, inner[x.position]? = some b ∧ ⟨x.binder, .var b.name⟩ ∈ t
  /-- What is kept is as it was. -/
  kept : d.kept.Sublist t
  /-- No position is taken twice. -/
  nodup : d.positions.Nodup
  /-- A position is taken if an output returns its array. -/
  covered : ∀ o ∈ t, ∀ k, o.returned? inner = some k → k ∈ d.positions
  /-- An output that returns something else is kept. -/
  others : ∀ o ∈ t, o.returned? inner = none → o ∈ d.kept
  /-- Of the outputs that return an array whose position is taken, all but one are kept. -/
  counts : ∀ n k, Pattern.position? inner n = some k →
    (Target.values d.kept).count (.var n) + (if k ∈ d.positions then 1 else 0)
      = (Target.values t).count (.var n)

namespace Divides

/-- No outputs are divided into none. -/
theorem nil : Divides inner [] {} where
  perm := .refl _
  taken := by simp
  kept := .refl _
  nodup := .nil
  covered := by simp
  others := by simp
  counts := by simp [Division.positions, Target.values]

/-- One more output is taken. -/
theorem take (h : Divides inner t d) {k : Nat} (hk : o.returned? inner = some k)
    (hfree : k ∉ d.positions) :
    Divides inner (t ++ [o]) { d with taken := d.taken ++ [⟨k, o.binder⟩] } := by
  obtain ⟨m, hm, hpos⟩ := Output.returned?_eq_some_iff.1 hk
  have hpositions : positions { d with taken := d.taken ++ [⟨k, o.binder⟩] }
      = d.positions ++ [k] := by
    simp [positions]
  refine ⟨?_, ?_, ?_, ?_, ?_, ?_, ?_⟩
  · -- The new array comes after those taken before, in front of those kept.
    have hmove : (d.taken.map (·.binder) ++ [o.binder] ++ Target.pattern d.kept).Perm
        (d.taken.map (·.binder) ++ Target.pattern d.kept ++ [o.binder]) := by
      rw [List.append_assoc, List.append_assoc]
      exact List.perm_append_comm.append_left _
    simpa [Target.pattern] using hmove.trans (h.perm.append_right _)
  · intro x hx
    rcases List.mem_append.1 hx with hx | hx
    · obtain ⟨b, hb, hmem⟩ := h.taken x hx
      exact ⟨b, hb, List.mem_append_left _ hmem⟩
    · obtain ⟨b, hb, rfl⟩ := Pattern.getElem?_of_position?_eq_some hpos
      rw [List.mem_singleton.1 hx]
      exact ⟨b, hb, List.mem_append_right _ (by rw [← hm]; exact List.mem_singleton_self _)⟩
  · exact h.kept.trans (List.sublist_append_left ..)
  · -- The position is free, so it may be put at the end.
    rw [hpositions, ← List.concat_eq_append]
    exact h.nodup.concat hfree
  · intro o' ho' k' hk'
    rw [hpositions, List.mem_append, List.mem_singleton]
    rcases List.mem_append.1 ho' with ho' | ho'
    · exact Or.inl (h.covered o' ho' k' hk')
    · rw [List.mem_singleton.1 ho', hk] at hk'
      exact Or.inr (Option.some.inj hk').symm
  · intro o' ho' hnone
    rcases List.mem_append.1 ho' with ho' | ho'
    · exact h.others o' ho' hnone
    · rw [List.mem_singleton.1 ho', hk] at hnone
      cases hnone
  · intro n k' hk'
    have hold := h.counts n k' hk'
    rw [hpositions, Target.count_values_concat, hm]
    by_cases hn : m = n
    · -- The output returns this very array, whose position is taken only now.
      subst hn
      obtain rfl : k = k' := Option.some.inj (hpos.symm.trans hk')
      simpa [hfree] using hold
    · have hne : k' ≠ k := fun heq => hn (Pattern.eq_of_position?_eq_some (heq ▸ hpos) hk')
      simpa [hn, hne] using hold

/-- One more output is kept. -/
theorem keep (h : Divides inner t d) (hseen : ∀ k, o.returned? inner = some k → k ∈ d.positions) :
    Divides inner (t ++ [o]) { d with kept := d.kept ++ [o] } := by
  refine ⟨?_, ?_, ?_, h.nodup, ?_, ?_, ?_⟩
  · simpa [Target.pattern] using h.perm.append_right [o.binder]
  · intro x hx
    obtain ⟨b, hb, hmem⟩ := h.taken x hx
    exact ⟨b, hb, List.mem_append_left _ hmem⟩
  · exact h.kept.append_right [o]
  · intro o' ho' k hk
    rcases List.mem_append.1 ho' with ho' | ho'
    · exact h.covered o' ho' k hk
    · exact hseen k (List.mem_singleton.1 ho' ▸ hk)
  · intro o' ho' hnone
    rcases List.mem_append.1 ho' with ho' | ho'
    · exact List.mem_append_left _ (h.others o' ho' hnone)
    · exact List.mem_append_right _ ho'
  · intro n k hk
    have hold := h.counts n k hk
    show (Target.values (d.kept ++ [o])).count _ + (if k ∈ d.positions then 1 else 0) = _
    rw [Target.count_values_concat, Target.count_values_concat]
    omega

/-- Outputs may be divided one after the other. -/
theorem foldl (h : Divides inner t d) (t' : Target) :
    Divides inner (t ++ t') (t'.foldl (Division.add inner) d) := by
  -- The outputs still to come get fewer, those gone through are general.
  induction t' generalizing t d with
  | nil => simpa using h
  | cons o t' ih =>
    have hstep : Divides inner (t ++ [o]) (Division.add inner d o) := by
      rcases add_cases inner d o with ⟨k, hk, hfree, heq⟩ | ⟨hseen, heq⟩
      · exact heq ▸ h.take hk hfree
      · exact heq ▸ h.keep hseen
    simpa using ih hstep

end Divides

/-- The outputs of a level are divided. -/
theorem divides_ofTarget (inner : Pattern) (t : Target) : Divides inner t (ofTarget inner t) :=
  Divides.nil.foldl t

namespace Divides

/-- What is taken and what is not has every position once. -/
theorem perm_positions (h : Divides inner t d) :
    (d.positions ++ (d.untaken inner).map (·.2)).Perm (List.range inner.length) := by
  have hlt : ∀ k ∈ d.positions, k < inner.length := by
    intro k hk
    obtain ⟨x, hx, rfl⟩ := List.mem_map.1 hk
    obtain ⟨b, hb, -⟩ := h.taken x hx
    exact (List.getElem?_eq_some_iff.1 hb).1
  -- Both lists are all positions in order, less those that are not taken or those that are.
  have huntaken : (d.untaken inner).map (·.2)
      = (List.range inner.length).filter fun k => !decide (k ∈ d.positions) := by
    rw [List.range_eq_range', ← List.zipIdx_map_snd 0 inner, List.filter_map]
    simp [untaken, Function.comp_def]
  have htaken : d.positions.Perm
      ((List.range inner.length).filter fun k => decide (k ∈ d.positions)) := by
    rw [List.perm_ext_iff_of_nodup h.nodup (List.nodup_range.filter _)]
    intro k
    simp only [List.mem_filter, List.mem_range, decide_eq_true_eq]
    exact ⟨fun hk => ⟨hlt k hk, hk⟩, And.right⟩
  rw [huntaken]
  exact (htaken.append_right _).trans (List.filter_append_perm _ _)

/-- An array that none takes is listed with its position. -/
theorem getElem?_of_mem_untaken {x : Binder × Nat} (hx : x ∈ d.untaken inner) :
    inner[x.2]? = some x.1 :=
  List.mem_zipIdx_iff_getElem?.1 (List.mem_filter.1 hx).1

/-- If the level inside binds no array twice, no output returns an array that none takes. -/
theorem value_ne_of_mem_untaken (h : Divides inner t d) (hnodup : (Pattern.names inner).Nodup)
    {x : Binder × Nat} (hx : x ∈ d.untaken inner) : ∀ o ∈ t, o.value ≠ .var x.1.name := by
  intro o ho hvalue
  have hpos := Pattern.position?_of_getElem? hnodup (getElem?_of_mem_untaken hx)
  have htaken := h.covered o ho x.2 (Output.returned?_eq_some_iff.2 ⟨_, hvalue, hpos⟩)
  simpa [htaken] using (List.mem_filter.1 hx).2

/-- Of the outputs that return one array of the level inside, all but one are kept. -/
theorem count_kept (h : Divides inner t d) (hn : n ∈ Pattern.names inner) :
    (Target.values d.kept).count (.var n) = (Target.values t).count (.var n) - 1 := by
  obtain ⟨k, hk⟩ := Pattern.exists_position?_eq_some hn
  have hcounts := h.counts n k hk
  by_cases htaken : k ∈ d.positions
  · rw [if_pos htaken] at hcounts
    omega
  · -- Without its position taken, no output returns the array.
    have hnone : (Target.values t).count (.var n) = 0 := by
      rw [List.count_eq_zero]
      intro hmem
      obtain ⟨o, ho, hvalue⟩ := List.mem_map.1 hmem
      exact htaken (h.covered o ho k (Output.returned?_eq_some_iff.2 ⟨n, hvalue, hk⟩))
    omega

end Divides

end Division

end MapNest
