import MapNest.Proofs.Nest.Ends

/-!
# `MapNest.Proofs.Nest.Origin`: where the names in a kernel nest come from

Every name that occurs in a kernel nest, or in the targets left behind, occurs in what the attempt
was given, or it was drawn on the way. This is stated for any property that the names given and the
names drawn have in common (`Selection.occurring_of_kernelNest_eq_ok`).

There are two halves. What stands outside of types is found in the derivation of the nest
(`Builds.untyped`). Types are computed from types that are looked up, so their names are never new:
here the property of names is a kind of types, with any failure allowed (`Attempt.kind_dimNames`).
-/

set_option autoImplicit false

namespace MapNest

/-! ### Names that occur -/

/-- The names that occur in a level outside of its types. -/
def Level.untyped (l : Level) : List Name :=
  Pattern.names (l.params ++ l.pattern) ++ l.checks ++ Operand.names [l.width] ++
    l.index :: l.arrays

/-- The names that occur in a level. -/
def Level.occurring (l : Level) : List Name :=
  l.untyped ++ Pattern.dimNames (l.params ++ l.pattern)

/-- The names that occur in a map and those that its body binds. -/
def Enclosing.occurring (e : Enclosing) : List Name := e.level.occurring ++ e.letBound.toList

/-- The names that occur in a target outside of its types. -/
def Target.untyped (t : Target) : List Name :=
  Pattern.names (pattern t) ++ Operand.names (Target.values t)

/-- The names that occur in a target. -/
def Target.occurring (t : Target) : List Name := untyped t ++ Pattern.dimNames (pattern t)

/-- The names that occur in what an attempt is given: in the maps, their targets and the types in
scope. -/
def Attempt.occurring (st : Attempt) (nesting : Nesting) (targets : Targets) : List Name :=
  nesting.toList.flatMap Enclosing.occurring ++ targets.toList.flatMap Target.occurring ++
    (Pattern.names st.scope.binders ++ Pattern.dimNames st.scope.binders)

/-- Outside of its types a level has the names that it binds or produces, its checks, its width and
the arrays it reads. -/
theorem Level.mem_untyped {l : Level} {n : Name} :
    n ∈ l.untyped ↔ n ∈ l.bound ∨ n ∈ Pattern.names l.pattern ∨ n ∈ l.checks ∨
      l.width = .var n ∨ n ∈ l.arrays := by
  simp only [untyped, bound, Pattern.names_append, NameSet.mem_ofList, List.mem_append,
    List.mem_cons, Operand.mem_names, List.not_mem_nil, or_false, eq_comm (a := Operand.var n)]
  tauto

/-- No names come in when the arrays of a level are put into another order. -/
theorem Level.mem_untyped_of_permute {l : Level} {order : List Nat} {n : Name}
    (h : n ∈ (l.permute order).untyped) : n ∈ l.untyped := by
  rw [mem_untyped] at h ⊢
  rcases h with h | h | h
  · exact Or.inl h
  · obtain ⟨b, hb, rfl⟩ := Pattern.mem_names.1 h
    exact Or.inr (Or.inl (Pattern.mem_names.2 ⟨b, Pattern.mem_of_mem_permute hb, rfl⟩))
  · exact Or.inr (Or.inr h)

/-- What a level binds occurs in it. -/
theorem Level.mem_occurring_of_mem_bound {l : Level} {n : Name} (h : n ∈ l.bound) :
    n ∈ l.occurring :=
  List.mem_append_left _ (mem_untyped.2 (Or.inl h))

/-- The arrays that a level produces occur in it. -/
theorem Level.mem_occurring_of_mem_pattern {l : Level} {n : Name}
    (h : n ∈ Pattern.names l.pattern) : n ∈ l.occurring :=
  List.mem_append_left _ (mem_untyped.2 (Or.inr (Or.inl h)))

/-- The sizes of the arrays that a level produces occur in it. -/
theorem Level.mem_occurring_of_mem_dimNames {l : Level} {n : Name}
    (h : n ∈ Pattern.dimNames l.pattern) : n ∈ l.occurring := by
  obtain ⟨b, hb, hn⟩ := List.mem_flatMap.1 h
  exact List.mem_append_right _ (List.mem_flatMap.2 ⟨b, List.mem_append_right _ hb, hn⟩)

/-- What a level mentions occurs in it. -/
theorem Level.Mentions.mem_occurring {l : Level} {n : Name} (h : l.Mentions n) :
    n ∈ l.occurring := by
  rcases h with hwidth | hcheck | ⟨r, hr, hdim⟩ | ⟨r, hr, rfl⟩
  · exact List.mem_append_left _ (mem_untyped.2 (Or.inr (Or.inr (Or.inr (Or.inl hwidth)))))
  · exact List.mem_append_left _ (mem_untyped.2 (Or.inr (Or.inr (Or.inl hcheck))))
  · refine List.mem_append_right _ (List.mem_flatMap.2 ⟨r.param, ?_, Ty.mem_dimNames.2 hdim⟩)
    exact List.mem_append_left _ (List.mem_map_of_mem hr)
  · refine List.mem_append_left _ (mem_untyped.2 (Or.inr (Or.inr (Or.inr (Or.inr ?_)))))
    exact List.mem_map_of_mem hr

/-- Outside of its types a target has its arrays and the names that it returns. -/
theorem Target.mem_untyped {t : Target} {n : Name} :
    n ∈ untyped t ↔ ∃ o ∈ t, o.binder.name = n ∨ o.value = .var n := by
  rw [untyped, List.mem_append, mem_names_pattern, Operand.mem_names, Target.values, List.mem_map]
  constructor
  · rintro (⟨o, ho, hn⟩ | ⟨o, ho, hn⟩)
    · exact ⟨o, ho, Or.inl hn⟩
    · exact ⟨o, ho, Or.inr hn⟩
  · rintro ⟨o, ho, hn | hn⟩
    · exact Or.inl ⟨o, ho, hn⟩
    · exact Or.inr ⟨o, ho, hn⟩

/-- What occurs in two targets together occurs in one of them. -/
theorem Target.mem_untyped_append {t t' : Target} {n : Name} :
    n ∈ untyped (t ++ t') ↔ n ∈ untyped t ∨ n ∈ untyped t' := by
  simp only [mem_untyped, List.mem_append, or_and_right, exists_or]

/-- What occurs in some outputs of a target occurs in the target. -/
theorem Target.mem_untyped_of_subset {t t' : Target} {n : Name} (h : ∀ o ∈ t, o ∈ t')
    (hn : n ∈ untyped t) : n ∈ untyped t' := by
  obtain ⟨o, ho, hn⟩ := mem_untyped.1 hn
  exact mem_untyped.2 ⟨o, h o ho, hn⟩

/-- The arrays of a target occur in it. -/
theorem Target.mem_untyped_of_mem_pattern {t : Target} {n : Name}
    (h : n ∈ Pattern.names (pattern t)) : n ∈ untyped t :=
  List.mem_append_left _ h

/-- What a map binds occurs in it. -/
theorem Enclosing.mem_occurring_of_mem_names {e : Enclosing} {n : Name} (h : n ∈ e.names) :
    n ∈ e.occurring := by
  rcases mem_bound.1 (mem_names.1 h) with h | h
  · exact List.mem_append_right _ h
  · exact List.mem_append_left _ (List.mem_append_left _ (Level.mem_untyped.2 (Or.inl h)))

/-! ### Outside of types -/

section Untyped

variable {P : Name → Prop} {bound : NameSet} {lo hi : Nat}

/-- What occurs in a closed level outside of its types occurred in its map, or is among the arrays
of the level, or is handed in. -/
theorem Frame.Closes.untyped {f : Frame} {demand : Demand} {captures : List Capture}
    (h : f.Closes bound demand captures lo hi) (hmap : ∀ n ∈ f.enclosing.occurring, P n)
    (hpattern : ∀ n ∈ Pattern.names f.pattern, P n) (hbelow : ∀ n ∈ f.below, P n)
    (hcarrier : ∀ n b, f.carrier? n = some b → P b.name)
    (hnew : ∀ n : Name, lo ≤ n.tag → n.tag < hi → P n) :
    ∀ n ∈ (f.closed demand captures).untyped, P n := by
  have hlevel : ∀ n ∈ f.enclosing.level.untyped, P n := fun n hn =>
    hmap n (List.mem_append_left _ (List.mem_append_left _ hn))
  intro n hn
  rcases Level.mem_untyped.1 hn with hn | hn | hn | hn | hn
  · -- A level binds its index, the parameters that are still read, and what is handed in.
    rcases (Frame.mem_bound_closed h.names).1 hn with hindex | ⟨-, hparam⟩ | hcaptured
    · exact hlevel n (Level.mem_untyped.2 (Or.inl (Level.mem_bound.2 (Or.inl hindex))))
    · exact hlevel n (Level.mem_untyped.2 (Or.inl (Level.mem_bound.2 (Or.inr hparam))))
    · rcases (Frame.of_mem_captured hcaptured).1 with hlet | hproduced
      · exact hmap n (List.mem_append_right _ hlet)
      · exact hbelow n hproduced
  · exact hpattern n hn
  · exact hlevel n (Level.mem_untyped.2 (Or.inr (Or.inr (Or.inl hn))))
  · exact hlevel n (Level.mem_untyped.2 (Or.inr (Or.inr (Or.inr (Or.inl hn)))))
  · obtain ⟨r, hr, rfl⟩ := List.mem_map.1 hn
    rcases h.array_of_mem_inputs hr with ⟨i, hi, harray⟩ | ⟨m, b, hb, harray⟩ | ⟨hlo, hhi⟩
    · refine hlevel _ (Level.mem_untyped.2 (Or.inr (Or.inr (Or.inr (Or.inr ?_)))))
      exact List.mem_map.2 ⟨i, hi, harray⟩
    · exact harray ▸ hcarrier m b hb
    · exact hnew _ hlo hhi

/-- What a map left behind returns in addition are values handed in, into new arrays. -/
theorem Frame.Closes.untyped_added {f : Frame} {demand : Demand} {captures : List Capture}
    (h : f.Closes bound demand captures lo hi) (hmap : ∀ n ∈ f.enclosing.occurring, P n)
    (hbelow : ∀ n ∈ f.below, P n) (hnew : ∀ n : Name, lo ≤ n.tag → n.tag < hi → P n) :
    ∀ n ∈ Target.untyped (captures.flatMap (·.added)), P n := by
  intro n hn
  obtain ⟨o, ho, rfl | hvalue⟩ := Target.mem_untyped.1 hn
  · obtain ⟨c, hc, ho⟩ := List.mem_flatMap.1 ho
    obtain ⟨hlo, hhi⟩ := h.tag_of_mem_added hc ho
    exact hnew _ hlo hhi
  · -- The value is what is captured, and that is bound by the body or produced further inside.
    rcases (Frame.of_mem_captured (h.mem_captured_of_mem_added ho hvalue)).1 with
      hlet | hproduced
    · exact hmap _ (List.mem_append_right _ hlet)
    · exact hbelow _ hproduced

/-- What occurs in the levels built and in the targets left behind, outside of types, occurred in
the maps and their targets, or it is new. -/
theorem Builds.untyped {s : Selection} {levels : List (Enclosing × Target)} {built : Built}
    (h : Builds s bound levels lo hi built)
    (hold : ∀ x ∈ levels, (∀ n ∈ x.1.occurring, P n) ∧ ∀ n ∈ Target.untyped x.2, P n)
    (hnew : ∀ n : Name, lo ≤ n.tag → n.tag < hi → P n) :
    (∀ l ∈ built.nest.toList, ∀ n ∈ l.untyped, P n) ∧
      ∀ t ∈ built.targets.toList, ∀ n ∈ Target.untyped t, P n := by
  induction h with
  | @innermost t f captures lo hi hbelow hcarrier hpassed htargets _ hpattern hcloses =>
    obtain ⟨hmap, htarget⟩ := hold _ (List.mem_singleton_self _)
    have hnone : ∀ n ∈ f.below, P n := fun n hn => absurd hn (hbelow n)
    have hof : ∀ {t' : Target}, (∀ o ∈ t', o ∈ t) → ∀ n ∈ Target.untyped t', P n :=
      fun hsub n hn => htarget n (Target.mem_untyped_of_subset hsub hn)
    constructor
    · intro l hl
      rw [List.mem_singleton.1 hl]
      refine hcloses.untyped hmap (fun n hn => ?_) hnone (fun n b hb => ?_) hnew
      · rw [hpattern] at hn
        exact hof htargets n (Target.mem_untyped_of_mem_pattern hn)
      · exact htarget _ (Target.mem_untyped.2 ⟨_, hpassed _ (hcarrier n b hb), Or.inl rfl⟩)
    · intro t' ht n hn
      rw [List.mem_singleton.1 ht] at hn
      rcases Target.mem_untyped_append.1 hn with hn | hn
      · exact hcloses.untyped_added hmap hnone hnew n hn
      · exact hof (List.forall_mem_map.2 hpassed) n hn
  | @enclose within t built f captures order lo mid hi hwithin hbelow hcarrier htarget hpattern _
      hcloses ih =>
    have hlo := hwithin.le
    have hhi := hcloses.le
    obtain ⟨hmap, hown⟩ := hold _ (List.mem_cons_self ..)
    obtain ⟨hlevels, htargets⟩ := ih (fun x hx => hold x (List.mem_cons_of_mem _ hx))
      fun n hn hn' => hnew n hn (by omega)
    have hnew' : ∀ n : Name, mid ≤ n.tag → n.tag < hi → P n := fun n hn hn' =>
      hnew n (by omega) hn'
    -- What the map just inside leaves behind has been dealt with.
    have hproduced : ∀ n ∈ f.below, P n := by
      intro n hn
      obtain ⟨o, ho, rfl⟩ := (hbelow n).1 hn
      exact htargets _ built.targets.outermost_mem _ (Target.mem_untyped.2 ⟨o, ho, Or.inl rfl⟩)
    constructor
    · intro l hl
      rw [Stack.toList_pushOuter, Stack.toList_map] at hl
      rcases List.mem_cons.1 hl with rfl | hl
      · refine hcloses.untyped hmap (fun n hn => ?_) hproduced (fun n b hb => ?_) hnew'
        · -- The arrays of the level are taken from the target, or are new.
          obtain ⟨b, hb, rfl⟩ := Pattern.mem_names.1 hn
          rcases hpattern b hb with ⟨o, ho, rfl⟩ | ⟨-, hn, hn'⟩
          · exact hown _ (Target.mem_untyped.2 ⟨o, ho, Or.inl rfl⟩)
          · exact hnew _ hn hn'
        · rw [hcarrier] at hb
          cases hb
      · obtain ⟨l', hl', rfl⟩ := List.mem_map.1 hl
        exact fun n hn => hlevels l' hl' n (Level.mem_untyped_of_permute hn)
    · intro t' ht n hn
      rw [Stack.toList_pushOuter] at ht
      rcases List.mem_cons.1 ht with rfl | ht
      · rcases Target.mem_untyped_append.1 hn with hn | hn
        · exact hown n (Target.mem_untyped_of_subset htarget hn)
        · exact hcloses.untyped_added hmap hproduced hnew' n hn
      · exact htargets t' ht n hn

end Untyped

/-! ### In types -/

section Types

variable {P : Name → Prop} {st st' : Attempt} {nesting : Nesting} {targets : Targets}

/-- The types whose sizes have a property are a kind, if the attempt may stop. -/
theorem Attempt.kind_dimNames {bound : NameSet} :
    Kind (fun _ => True) (fun ty => ∀ n ∈ ty.dimNames, P n) bound where
  dims ty ty' hdims h := by
    simp only [Ty.mem_dimNames] at h ⊢
    exact hdims ▸ h
  irregular _ _ := Or.inr fun _ => trivial

/-- What holds of the names in the types in scope holds of those in the type of any name that has
one. -/
theorem Attempt.types_dimNames (h : ∀ n ∈ Pattern.dimNames st.scope.binders, P n) (n : Name) :
    st.Types (fun _ => True) (fun ty => ∀ m ∈ ty.dimNames, P m) n := by
  unfold Types
  cases hlookup : st.scope.lookup? n with
  | none => exact trivial
  | some ty =>
    obtain ⟨b, hb, rfl⟩ := Option.map_eq_some_iff.1 hlookup
    exact fun m hm => h m (List.mem_flatMap.2 ⟨b, List.mem_of_find?_eq_some hb, hm⟩)

/-- What occurs in one of the maps or targets occurs in what the attempt is given. -/
theorem Attempt.mem_occurring (hdepth : nesting.depth = targets.depth) {x : Enclosing × Target}
    (hx : x ∈ nesting.levels targets) {n : Name}
    (hn : n ∈ x.1.occurring ∨ n ∈ Target.occurring x.2) : n ∈ st.occurring nesting targets := by
  obtain ⟨hmap, htarget⟩ := Nesting.mem_of_mem_levels hdepth hx
  refine List.mem_append_left _ (List.mem_append.2 ?_)
  rcases hn with hn | hn
  · exact Or.inl (List.mem_flatMap.2 ⟨_, hmap, hn⟩)
  · exact Or.inr (List.mem_flatMap.2 ⟨_, htarget, hn⟩)

/-- What holds of all names that occur holds of those in the types that a level may look at. -/
theorem Attempt.furnished_dimNames (hdepth : nesting.depth = targets.depth)
    (h : ∀ n ∈ st.occurring nesting targets, P n) :
    ∀ x ∈ nesting.levels targets,
      Furnished (fun _ => True) (fun ty => ∀ n ∈ ty.dimNames, P n) st x := by
  intro x hx
  have hmap : ∀ n ∈ x.1.occurring, P n := fun n hn => h n (mem_occurring hdepth hx (Or.inl hn))
  have htarget : ∀ n ∈ Target.occurring x.2, P n := fun n hn =>
    h n (mem_occurring hdepth hx (Or.inr hn))
  have htypes : ∀ n, st.Types (fun _ => True) (fun ty => ∀ m ∈ ty.dimNames, P m) n :=
    types_dimNames fun n hn => h n (List.mem_append_right _ (List.mem_append_right _ hn))
  refine ⟨fun ty hty n hn => ?_, fun i hi n hn => hmap n ?_, fun n _ => htypes n,
    fun o ho n hn => htarget n ?_, fun o _ => htypes _⟩
  · rw [Ty.mem_dimNames, Ty.dims_arrayOf, List.mem_cons] at hn
    rcases hn with hwidth | hn
    · refine hmap n (List.mem_append_left _ (List.mem_append_left _ (Level.mem_untyped.2 ?_)))
      exact Or.inr (Or.inr (Or.inr (Or.inl hwidth.symm)))
    · exact hty n (Ty.mem_dimNames.2 hn)
  · refine List.mem_append_left _ (List.mem_append_right _ (List.mem_flatMap.2 ⟨i.param, ?_, hn⟩))
    exact List.mem_append_left _ (List.mem_map_of_mem hi)
  · exact List.mem_append_right _ (List.mem_flatMap.2 ⟨_, List.mem_map_of_mem ho, hn⟩)

/-! ### Both together -/

/-- What occurs in a kernel nest and in the targets left behind occurs in what the attempt was
given, or it is new. -/
theorem Selection.occurring_of_kernelNest_eq_ok {targets' : Targets} {nest : KernelNest}
    {stms : List Stm} (h : (ofStms targets stms).kernelNest nesting st = .ok (targets', nest) st')
    (hnext : st.supply.next ≤ Supply.lastTag) (hold : ∀ n ∈ st.occurring nesting targets, P n)
    (hnew : ∀ n : Name, st.supply.next ≤ n.tag → n.tag < st'.supply.next → P n) :
    (∀ l ∈ nest.toList, ∀ n ∈ l.occurring, P n) ∧
      ∀ t ∈ targets'.toList, ∀ n ∈ Target.occurring t, P n := by
  obtain ⟨hdepth, demand, harranges⟩ := arranges_of_kernelNest_eq_ok h
  have hlevels : ∀ x ∈ nesting.levels targets,
      (∀ n ∈ x.1.occurring, P n) ∧ ∀ n ∈ Target.untyped x.2, P n := fun x hx =>
    ⟨fun n hn => hold n (Attempt.mem_occurring hdepth hx (Or.inl hn)),
      fun n hn => hold n (Attempt.mem_occurring hdepth hx (Or.inr (List.mem_append_left _ hn)))⟩
  -- The derivation knows of names outside of types, and the run of the types.
  obtain ⟨huntyped, huntyped'⟩ := harranges.builds.untyped hlevels hnew
  obtain ⟨-, htypes, htypes'⟩ := (kernelNest_ends hdepth Attempt.kind_dimNames hnext
    (Attempt.furnished_dimNames hdepth hold)).of_eq_ok h
  refine ⟨fun l hl n hn => ?_, fun t ht n hn => ?_⟩
  · rcases List.mem_append.1 hn with hn | hn
    · exact huntyped l hl n hn
    · obtain ⟨b, hb, hn⟩ := List.mem_flatMap.1 hn
      exact htypes l hl b hb n hn
  · rcases List.mem_append.1 hn with hn | hn
    · exact huntyped' t ht n hn
    · obtain ⟨b, hb, hn⟩ := List.mem_flatMap.1 hn
      obtain ⟨o, ho, rfl⟩ := List.mem_map.1 hb
      exact htypes' t ht o ho n hn

end Types

end MapNest
