import MapNest.Proofs.Nest.Accounts
import MapNest.Proofs.Nest.Scoped

/-!
# `MapNest.Proofs.Nest.Dangling`: what the maps left behind return

The maps left behind can return neither what the statements bound, which are gone, nor an array that
the map just inside has given up to the kernel. `Targets.Grounded` says that they return none of
these.

What a run adds to a target is grounded: it captures values that are still there
(`Arranges.leaves`). What it keeps may not be. Of two outputs that return one array of the map
inside, the first is taken over, and the array with it; the second is kept, and now returns an array
that is no longer there. `Selection.kernelNest_grounded_iff` says that this is the only way for an
orderly nest to go wrong, besides returning from an outer map what only the innermost body binds,
and `Doubled` is a nest where it happens.
-/

set_option autoImplicit false

namespace MapNest

/-- Nothing is read in a nest before it is there, and statements stay with the innermost body. -/
structure Orderly (nesting : Nesting) (targets : Targets) (stms : List Stm) (next : Nat) : Prop
    extends Consistent nesting targets next where
  /-- No map binds an array twice. -/
  distinct : ∀ t ∈ targets.toList, (Pattern.names (Target.pattern t)).Nodup
  /-- The width of a map is known outside it. -/
  widths : EachLevel (fun e _ within => ∀ n ∈ Operand.names [e.level.width], n ∉ e.inside within)
    (nesting.levels targets)
  /-- The checks of a map are bound outside it. -/
  checks : EachLevel (fun e _ within => ∀ n ∈ e.level.checks, n ∉ e.inside within)
    (nesting.levels targets)
  /-- An array is not read where it is produced, neither by a map nor by the statements. -/
  unread : EachLevel (fun e t within => ∀ o ∈ t, o.binder.name ∉ Stm.freeAll stms ∧
      ∀ x ∈ (e, t) :: within, o.binder.name ∉ x.1.level.free)
    (nesting.levels targets)
  /-- The outer maps do not bind what the statements bind. -/
  outer : ∀ e ∈ nesting.outer, ∀ n ∈ Stm.bound stms, n ∉ e.bound
  /-- Neither is it an array that a map produces. -/
  arrays_stms : ∀ t ∈ targets.toList, ∀ o ∈ t, o.binder.name ∉ Stm.bound stms
  /-- What the statements bind has an earlier tag. -/
  tags_stms : ∀ n ∈ Stm.bound stms, n.tag < next

/-- The maps left behind return nothing that went into the kernel: nothing that the statements bind,
and no array that the kernel binds at the next level in. -/
def Targets.Grounded (targets : Targets) (stms : List Stm) (nest : KernelNest) : Prop :=
  ∀ k n, .var n ∈ Target.values (targets.outputsAt k) →
    n ∉ Stm.bound stms ∧ n ∉ Pattern.names (nest.arraysAt (k + 1))

/-- No level is further in than the innermost. -/
theorem Targets.mem_inner_of_mem_outputsAt {ts : Targets} {k : Nat} {o : Output}
    (h : ts.depth ≤ k + 1) (ho : o ∈ ts.outputsAt k) : o ∈ ts.inner := by
  have hlen : ts.outer.length ≤ k := Nat.le_of_succ_le_succ h
  rw [outputsAt, List.getD_eq_getElem?_getD, Stack.toList, List.getElem?_append_right hlen] at ho
  cases hk : k - ts.outer.length with
  | zero => simpa [hk] using ho
  | succ m => simp [hk] at ho

/-! ### One level -/

/-- What a map left behind returns: of its outputs, divided by the arrays that the kernel binds just
inside, those that it kept, and values that did not go into the kernel. -/
inductive Leaves (stms : List Stm) (arrays : Pattern) (t : Target) : Target → Prop
  | split {inner : Pattern} {d : Division} {added : Target} (hdivides : d.Divides inner t)
      (hperm : inner.Perm arrays)
      (hadded : ∀ o ∈ added, ∀ n, o.value = .var n →
        n ∉ Stm.bound stms ∧ n ∉ Pattern.names arrays) :
      Leaves stms arrays t (d.kept ++ added)

/-- What a map leaves behind does not depend on the order of the arrays inside. -/
theorem Leaves.of_perm {stms : List Stm} {arrays arrays' : Pattern} {t t' : Target}
    (h : Leaves stms arrays t t') (hperm : arrays.Perm arrays') : Leaves stms arrays' t t' := by
  obtain ⟨hdivides, hinner, hadded⟩ := h
  refine .split hdivides (hinner.trans hperm) fun o ho n hn => ?_
  exact (hadded o ho n hn).imp_right fun hout hmem =>
    hout ((hperm.map (·.name)).mem_iff.2 hmem)

/-- What a map leaves behind returns nothing that went into the kernel just if the map returned
nothing from the statements, and no array inside more than once. -/
theorem Leaves.grounded_iff {stms : List Stm} {arrays : Pattern} {t t' : Target}
    (h : Leaves stms arrays t t') (hstms : ∀ n ∈ Stm.bound stms, n ∉ Pattern.names arrays) :
    (∀ n, .var n ∈ Target.values t' → n ∉ Stm.bound stms ∧ n ∉ Pattern.names arrays) ↔
      (∀ n ∈ Stm.bound stms, .var n ∉ Target.values t) ∧
        ∀ n ∈ Pattern.names arrays, (Target.values t).count (.var n) ≤ 1 := by
  obtain @⟨inner, d, added, hdivides, hperm, hadded⟩ := h
  have hnames : ∀ n, n ∈ Pattern.names inner ↔ n ∈ Pattern.names arrays := fun n =>
    (hperm.map (·.name)).mem_iff
  have hvalues : ∀ n, .var n ∈ Target.values (d.kept ++ added) ↔
      .var n ∈ Target.values d.kept ∨ ∃ o ∈ added, o.value = .var n := by
    intro n
    simp [Target.values, List.mem_append]
  constructor
  · intro hgrounded
    refine ⟨fun n hn hvalue => ?_, fun n hn => ?_⟩
    · -- An output that returns what the statements bind is kept.
      obtain ⟨o, ho, hvar⟩ := List.mem_map.1 hvalue
      have hnone : o.returned? inner = none := by
        rw [Option.eq_none_iff_forall_ne_some]
        intro k hk
        obtain ⟨m, hm, hposition⟩ := Output.returned?_eq_some_iff.1 hk
        cases hvar.symm.trans hm
        obtain ⟨b, hb, hname⟩ := Pattern.getElem?_of_position?_eq_some hposition
        exact hstms n hn ((hnames n).1 (Pattern.mem_names.2 ⟨b, List.mem_of_getElem? hb, hname⟩))
      have hkept : .var n ∈ Target.values d.kept :=
        List.mem_map.2 ⟨o, hdivides.others o ho hnone, hvar⟩
      exact (hgrounded n ((hvalues n).2 (Or.inl hkept))).1 hn
    · -- Were the array returned twice, one of the outputs would be kept.
      by_contra hcount
      have hkept := hdivides.count_kept ((hnames n).2 hn)
      have hmem : .var n ∈ Target.values d.kept := List.count_pos_iff.1 (by omega)
      exact (hgrounded n ((hvalues n).2 (Or.inl hmem))).2 hn
  · rintro ⟨hreturned, hcount⟩ n hn
    rcases (hvalues n).1 hn with hkept | ⟨o, ho, hvar⟩
    · -- What is kept was returned before, and an array taken over is not returned a second time.
      have hold : .var n ∈ Target.values t :=
        (hdivides.kept.map (·.value)).subset hkept
      refine ⟨fun hbound => hreturned n hbound hold, fun harray => ?_⟩
      have hone := hcount n harray
      have hless := hdivides.count_kept ((hnames n).2 harray)
      have hpos := List.count_pos_iff.2 hkept
      omega
    · exact hadded o ho n hvar

/-! ### Where a demand comes from -/

namespace Capture.Drawn

variable {width : Operand} {carrier? : Name → Option Binder} {lo hi : Nat} {c : Capture}

/-- The array of a capture carries the value already, or the map left behind returns the value into
it from now on. -/
theorem array_origin (h : c.Drawn width carrier? lo hi) :
    (∃ b, carrier? c.input.param.name = some b ∧ b.name = c.input.array) ∨
      ∃ o ∈ c.added, o.binder.name = c.input.array := by
  cases h with
  | carried b hcarrier harray _ => exact Or.inl ⟨b, hcarrier, harray.symm⟩
  | fresh _ _ hadded =>
    rw [hadded]
    exact Or.inr ⟨_, List.mem_singleton_self _, rfl⟩

end Capture.Drawn

/-- What a closed level mentions of the nest its map mentions, or it is the array of a capture. -/
theorem Frame.Closes.mentions_origin {f : Frame} {bound : NameSet} {demand : Demand}
    {captures : List Capture} {lo hi : Nat} {n : Name} (h : f.Closes bound demand captures lo hi)
    (hn : n ∈ bound) (hm : (f.closed demand captures).Mentions n) :
    f.enclosing.level.Mentions n ∨ ∃ c ∈ captures, c.input.array = n := by
  rcases hm with hwidth | hchecks | ⟨r, hr, hdims⟩ | ⟨r, hr, rfl⟩
  · exact Or.inl (Or.inl hwidth)
  · exact Or.inl (Or.inr (Or.inl hchecks))
  · have hparam : r.param ∈ (f.closed demand captures).params := List.mem_map_of_mem hr
    exact absurd hn (h.regular r.param (List.mem_append_left _ hparam) n hdims)
  · obtain ⟨i, ⟨hown, -⟩ | ⟨c, hc, rfl⟩, rfl⟩ := Frame.mem_inputs_closed.1 hr
    · rw [RowInput.array_demote]
      exact Or.inl (Level.mentions_array hown)
    · rw [RowInput.array_demote]
      exact Or.inr ⟨c, hc, rfl⟩

/-- What the levels built demand of the nest is read by the statements, mentioned by a map, or
produced by the outermost map left behind. -/
theorem Builds.demand_origin {s : Selection} {bound : NameSet} {levels : List (Enclosing × Target)}
    {lo hi : Nat} {built : Built} {n : Name} (h : Builds s bound levels lo hi built)
    (hn : n ∈ bound) (hdemand : n ∈ built.demand.free) :
    n ∈ s.free ∨ (∃ x ∈ levels, x.1.level.Mentions n) ∨
      ∃ o ∈ built.targets.outermost, o.binder.name = n := by
  induction h with
  | @innermost t f captures lo hi _ hcarrier _ _ _ _ hcloses =>
    rcases Demand.mem_around_free.1 hdemand with hfree | ⟨hread, -⟩
    · rcases hcloses.mentions_origin hn (Level.mem_free_iff_mentions.1 hfree).1 with
        hmap | ⟨c, hc, rfl⟩
      · exact Or.inr (Or.inl ⟨_, List.mem_singleton_self _, hmap⟩)
      · -- The array belongs to an output that was set aside, or to a new one.
        refine Or.inr (Or.inr ?_)
        rcases (hcloses.drawn c hc).array_origin with ⟨b, hb, hname⟩ | ⟨o, ho, hname⟩
        · exact ⟨_, List.mem_append_right _ (List.mem_map_of_mem (hcarrier _ b hb)), hname⟩
        · exact ⟨o, List.mem_append_left _ (List.mem_flatMap.2 ⟨c, hc, ho⟩), hname⟩
    · exact Or.inl (NameSet.mem_inter.1 hread).1
  | @enclose within t built f captures order lo mid hi hwithin hbelow hcarrier _ _ _ hcloses ih =>
    rcases Demand.mem_around_free.1 hdemand with hfree | ⟨hread, hout⟩
    · rcases hcloses.mentions_origin hn (Level.mem_free_iff_mentions.1 hfree).1 with
        hmap | ⟨c, hc, rfl⟩
      · exact Or.inr (Or.inl ⟨_, List.mem_cons_self .., hmap⟩)
      · refine Or.inr (Or.inr ?_)
        rcases (hcloses.drawn c hc).array_origin with ⟨b, hb, -⟩ | ⟨o, ho, hname⟩
        · rw [hcarrier] at hb
          cases hb
        · exact ⟨o, List.mem_append_right _ (List.mem_flatMap.2 ⟨c, hc, ho⟩), hname⟩
    · rcases ih hread with hs | ⟨x, hx, hmap⟩ | hproduced
      · exact Or.inl hs
      · exact Or.inr (Or.inl ⟨x, List.mem_cons_of_mem _ hx, hmap⟩)
      · -- What the map just inside produces, this level would have captured.
        exact absurd (Frame.mem_bound_closed_of_demand hcloses.names hread
          (Or.inr ((hbelow n).2 hproduced))) hout

/-! ### What is captured -/

/-- A name that is passed on is not bound by the statements. -/
theorem Selection.name_not_mem_bound_of_mem_passed {targets : Targets} {stms : List Stm}
    {p : Passed} (hp : p ∈ (ofStms targets stms).passed) : p.name ∉ Stm.bound stms := by
  obtain ⟨o, -, hpassed⟩ := List.mem_filterMap.1 hp
  unfold Output.passed? at hpassed
  split at hpassed
  · split at hpassed
    · cases hpassed
    · rename_i hn
      cases hpassed
      exact hn
  · cases hpassed

/-- A map with others inside is not the innermost. -/
theorem Nesting.mem_outer_of_levels {nesting : Nesting} {targets : Targets}
    {outer within : List (Enclosing × Target)} {e : Enclosing} {t : Target} {x : Enclosing × Target}
    (hl : nesting.levels targets = outer ++ (e, t) :: x :: within) : e ∈ nesting.outer := by
  have hzip : nesting.outer.zip targets.outer = outer ++ (e, t) :: (x :: within).dropLast := by
    have hdrop := congrArg List.dropLast hl
    rw [levels, List.dropLast_concat,
      List.dropLast_append_of_ne_nil (List.cons_ne_nil _ _)] at hdrop
    exact hdrop
  exact (List.of_mem_zip (hzip ▸ List.mem_append_right _ (List.mem_cons_self ..))).1

namespace Orderly

variable {nesting : Nesting} {targets : Targets} {stms : List Stm} {lo mid hi : Nat}
  {outer within : List (Enclosing × Target)} {t : Target} {n : Name} {f : Frame} {demand : Demand}
  {captures : List Capture}

/-- What is captured and bound by the body of the map is demanded further inside: the map itself
does not mention it. -/
theorem demanded_of_captured (ho : Orderly nesting targets stms lo)
    (hl : nesting.levels targets = outer ++ (f.enclosing, t) :: within)
    (hcloses : f.Closes nesting.bound demand captures mid hi) (hn : n ∈ f.captured demand)
    (hlet : n ∈ f.enclosing.letBound) : n ∈ demand.free := by
  obtain ⟨-, -, hdemand | hfree⟩ := Frame.of_mem_captured hn
  · exact hdemand
  have hbound : n ∈ f.enclosing.bound := Enclosing.mem_bound.2 (Or.inl hlet)
  have hinside : n ∈ f.enclosing.inside within := Enclosing.mem_inside.2 (Or.inl hbound)
  rcases (Level.mem_free.1 hfree).1 with hwidth | hchecks | ⟨r, hr, hdim⟩ | ⟨r, hr, rfl⟩
  · exact absurd hinside (ho.widths.of_eq_append hl n
      (Operand.mem_names.2 (List.mem_singleton.2 hwidth.symm)))
  · exact absurd hinside (ho.checks.of_eq_append hl n hchecks)
  · -- A parameter with such a size would make the level irregular.
    have hparam : r.demote demand.consumed ∈ (f.closed demand captures).inputs :=
      Frame.mem_inputs_closed.2 ⟨r, Or.inl (by simpa using List.mem_filter.1 hr), rfl⟩
    refine absurd (ho.mem_bound hl hbound)
      (hcloses.regular _ (List.mem_append_left _ (List.mem_map_of_mem hparam)) n ?_)
    rwa [RowInput.dims_demote]
  · exact absurd hinside (ho.array_not_mem_inside hl (List.mem_filter.1 hr).1)

/-- The innermost level captures nothing that the statements bind. -/
theorem not_mem_bound_of_captured_innermost (ho : Orderly nesting targets stms lo)
    (hl : nesting.levels targets = outer ++ [(f.enclosing, t)]) (hbelow : f.below = ∅)
    (hdemand : ∀ n ∈ demand.free, n ∉ Stm.bound stms)
    (hcloses : f.Closes nesting.bound demand captures mid hi) (hn : n ∈ f.captured demand) :
    n ∉ Stm.bound stms := by
  rcases (Frame.of_mem_captured hn).1 with hlet | hproduced
  · exact hdemand n (ho.demanded_of_captured hl hcloses hn hlet)
  · rw [hbelow] at hproduced
    exact absurd hproduced NameSet.not_mem_empty

/-- No array of a map just inside is demanded there, unless that map still produces it. -/
theorem produced_of_demanded {e : Enclosing} {built : Built}
    (ho : Orderly nesting targets stms lo)
    (hl : nesting.levels targets = outer ++ (e, t) :: within)
    (hwithin : Builds (Selection.ofStms targets stms) nesting.bound ((e, t) :: within) lo mid built)
    (hbound : n ∈ nesting.bound) (hdemand : n ∈ built.demand.free)
    (hn : n ∈ Pattern.names (Target.pattern t)) :
    ∃ o ∈ built.targets.outermost, o.binder.name = n := by
  obtain ⟨o, ho', rfl⟩ := Target.mem_names_pattern.1 hn
  obtain ⟨hstms, hmaps⟩ := ho.unread.of_eq_append hl o ho'
  rcases hwithin.demand_origin hbound hdemand with hread | ⟨x, hx, hmention⟩ | hproduced
  · exact absurd (NameSet.mem_sdiff.1 hread).1 hstms
  · -- A map that mentions the array would have it free or bind it, and it does neither.
    have hown : o.binder.name ∉ x.1.level.bound := by
      intro hmem
      have hhidden : o.binder.name ∈ hidden ((e, t) :: within) :=
        mem_hidden_of_mem_bound hx (Enclosing.mem_bound.2 (Or.inr hmem))
      exact ho.output_not_mem_inside hl ho' hhidden
    exact absurd (Level.mem_free_iff_mentions.2 ⟨hmention, hown⟩) (hmaps x hx)
  · exact hproduced

/-- A level around others captures nothing that went into the kernel. -/
theorem grounded_of_captured {built : Built} (ho : Orderly nesting targets stms lo)
    (hl : nesting.levels targets = outer ++ (f.enclosing, t) :: within)
    {scope : Scope}
    (hwithin : Arranges scope (Selection.ofStms targets stms) nesting.bound within lo mid built)
    (hbelow : ∀ n, n ∈ f.below ↔ ∃ o ∈ built.targets.outermost, o.binder.name = n)
    {top : Nat} (hcloses : f.Closes nesting.bound built.demand captures top hi)
    (hn : n ∈ f.captured built.demand) :
    n ∉ Stm.bound stms ∧ n ∉ Pattern.names built.nest.outermost.pattern := by
  cases within with
  | nil => exact absurd hwithin.builds.depth_nest (Nat.succ_ne_zero _)
  | cons x rest =>
    obtain ⟨e, t'⟩ := x
    have hl' := hl.trans (List.append_cons outer (f.enclosing, t) ((e, t') :: rest))
    have hinside : ∀ o ∈ t', o.binder.name ∈ f.enclosing.inside ((e, t') :: rest) := fun o ho' =>
      Enclosing.mem_inside.2 (Or.inr (declared_cons ▸ List.mem_append_left _
        (Target.mem_names_pattern.2 ⟨o, ho', rfl⟩)))
    have ht' : t' ∈ targets.toList := by
      rw [← Nesting.map_snd_levels ho.depth_eq, hl']
      simp
    -- The kernel and the map just inside share no array.
    have hnodup := hwithin.nodup_outputsAt (k := 0) rfl (ho.distinct t' ht')
      fun o ho' => ho.tag_lt_of_mem_inside hl (hinside o ho')
    rw [Targets.outputsAt_zero, KernelNest.arraysAt_zero, Pattern.names_append] at hnodup
    have hdisjoint : ∀ o ∈ built.targets.outermost,
        o.binder.name ∉ Pattern.names built.nest.outermost.pattern := fun o ho' hmem =>
      (List.nodup_append.1 hnodup).2.2 _ (Target.mem_names_pattern.2 ⟨o, ho', rfl⟩) _ hmem rfl
    rcases (Frame.of_mem_captured hn).1 with hlet | hproduced
    · have hbound := ho.mem_bound hl (Enclosing.mem_bound.2 (Or.inl hlet))
      refine ⟨fun hstms => ?_, fun hmem => ?_⟩
      · exact ho.outer _ (Nesting.mem_outer_of_levels hl) n hstms
          (Enclosing.mem_bound.2 (Or.inl hlet))
      · -- Bound by the body of the map, the name is old, so it is an array of the map inside.
        rw [← KernelNest.arraysAt_zero] at hmem
        rcases hwithin.mem_arraysAt (k := 0) rfl hmem with hold | hnew
        · obtain ⟨o, ho', rfl⟩ := ho.produced_of_demanded hl' hwithin.builds hbound
            (ho.demanded_of_captured hl hcloses hn hlet) hold
          exact hdisjoint o ho' (KernelNest.arraysAt_zero ▸ hmem)
        · have := ho.tag_of_mem_bound hbound
          omega
    · obtain ⟨o, ho', rfl⟩ := (hbelow n).1 hproduced
      refine ⟨fun hstms => ?_, hdisjoint o ho'⟩
      rcases hwithin.builds.mem_produced_or_new
        (hwithin.builds.mem_produced.2 ⟨o, ho', rfl⟩) with hold | hnew
      · obtain ⟨o', ho'', hname⟩ := Target.mem_names_pattern.1 hold
        exact ho.arrays_stms t' ht' o' ho'' (hname ▸ hstms)
      · have := ho.tags_stms _ hstms
        omega

end Orderly

/-! ### The levels of a nest -/

namespace Arranges

variable {scope : Scope} {nesting : Nesting} {targets : Targets} {stms : List Stm} {lo hi : Nat}
  {levels : List (Enclosing × Target)} {built : Built}

/-- What the maps left behind around others return. -/
theorem leaves
    (h : Arranges scope (Selection.ofStms targets stms) nesting.bound levels lo hi built) :
    Orderly nesting targets stms lo → ∀ outer, nesting.levels targets = outer ++ levels →
    ∀ {k : Nat} {e : Enclosing} {t : Target}, levels[k]? = some (e, t) → k + 1 < levels.length →
      Leaves stms (built.nest.arraysAt (k + 1)) t (built.targets.outputsAt k) := by
  induction h with
  | innermost =>
    intro _ _ _ k e t _ hk
    exact absurd hk (by simp)
  | @enclose within position e₀ t₀ built d new captures lo mid top hi hwithin hdivides hnew hdrawn
      hle hcloses hadded htyped ih =>
    intro ho outer hl k e t hk hlt
    have horder := hdivides.perm_order hnew
    rw [hwithin.length_pattern _ built.nest.outermost_mem] at horder
    have harrays := perm_arraysAt_permute hwithin.length_pattern horder k
    cases k with
    | zero =>
      cases hk
      have houtermost : built.nest.arraysAt 0 = built.nest.outermost.pattern :=
        KernelNest.arraysAt_zero
      rw [houtermost] at harrays
      refine Leaves.of_perm (.split hdivides (.refl _) fun o ho' n hn => ?_) harrays.symm
      refine ho.grounded_of_captured (f := built.frame position e₀ d new) hl hwithin (fun m => ?_)
        hcloses (hcloses.mem_captured_of_mem_added ho' hn)
      show m ∈ NameSet.ofList _ ↔ _
      rw [NameSet.mem_ofList, Target.mem_names_pattern]
    | succ k =>
      exact (ih ho _ (hl.trans (List.append_cons ..)) hk (Nat.lt_of_succ_lt_succ hlt)).of_perm
        harrays.symm

/-- What the innermost map left behind returns, the statements do not bind. -/
theorem not_mem_bound_of_mem_inner
    (h : Arranges scope (Selection.ofStms targets stms) nesting.bound levels lo hi built) :
    Orderly nesting targets stms lo → ∀ outer, nesting.levels targets = outer ++ levels →
    ∀ n, .var n ∈ Target.values built.targets.inner → n ∉ Stm.bound stms := by
  induction h with
  | @innermost position e t captures lo hi hrestore hcloses hadded htyped =>
    intro ho outer hl n hn
    obtain ⟨o, ho', hvalue⟩ := List.mem_map.1 hn
    rcases List.mem_append.1 ho' with ho' | ho'
    · refine ho.not_mem_bound_of_captured_innermost
        (f := (Selection.ofStms targets stms).frame position e) hl rfl (fun m hm => ?_) hcloses
        (hcloses.mem_captured_of_mem_added ho' hvalue)
      exact (NameSet.mem_sdiff.1 (NameSet.mem_inter.1 hm).1).2
    · -- An output was set aside because the statements do not bind its value.
      obtain ⟨p, hp, rfl⟩ := List.mem_map.1 ho'
      cases hvalue
      exact Selection.name_not_mem_bound_of_mem_passed hp
  | enclose _ _ _ _ _ _ _ _ ih =>
    intro ho outer hl
    exact ih ho _ (hl.trans (List.append_cons ..))

end Arranges

/-- The maps left behind return nothing that went into the kernel, just if the outer ones returned
nothing that the statements bind, and no array that the kernel takes over more than once. -/
theorem Selection.kernelNest_grounded_iff {nesting : Nesting} {targets targets' : Targets}
    {stms : List Stm} {nest : KernelNest} {st st' : Attempt}
    (ho : Orderly nesting targets stms st.supply.next)
    (h : (Selection.ofStms targets stms).kernelNest nesting st = .ok (targets', nest) st') :
    targets'.Grounded stms nest ↔
      ∀ k, k + 1 < nesting.depth →
        (∀ n ∈ Stm.bound stms, .var n ∉ Target.values (targets.outputsAt k)) ∧
          ∀ n ∈ Pattern.names (nest.arraysAt (k + 1)),
            (Target.values (targets.outputsAt k)).count (.var n) ≤ 1 := by
  obtain ⟨-, demand, harranges⟩ := Selection.arranges_of_kernelNest_eq_ok h
  have hlen := Nesting.length_levels ho.depth_eq
  have hlevel : ∀ k, k + 1 < nesting.depth →
      ((∀ n, .var n ∈ Target.values (targets'.outputsAt k) →
          n ∉ Stm.bound stms ∧ n ∉ Pattern.names (nest.arraysAt (k + 1))) ↔
        (∀ n ∈ Stm.bound stms, .var n ∉ Target.values (targets.outputsAt k)) ∧
          ∀ n ∈ Pattern.names (nest.arraysAt (k + 1)),
            (Target.values (targets.outputsAt k)).count (.var n) ≤ 1) := by
    intro k hk
    have hk' : k < (nesting.levels targets).length := by omega
    have hnext : k + 1 < (nesting.levels targets).length := by omega
    have hleaves := harranges.leaves ho [] rfl (List.getElem?_eq_getElem hk') hnext
    rw [Targets.outputsAt_eq ho.depth_eq (List.getElem?_eq_getElem hk')]
    refine hleaves.grounded_iff fun n hstms hmem => ?_
    -- An array of the kernel is older than the statements' names or younger, and none of them.
    rcases harranges.mem_arraysAt (List.getElem?_eq_getElem hnext) hmem with hold | hnew
    · obtain ⟨o, ho', rfl⟩ := Target.mem_names_pattern.1 hold
      refine ho.arrays_stms _ ?_ o ho' hstms
      rw [← Nesting.map_snd_levels ho.depth_eq]
      exact List.mem_map_of_mem (List.getElem_mem hnext)
    · have := ho.tags_stms n hstms
      omega
  constructor
  · intro hgrounded k hk
    exact (hlevel k hk).1 (hgrounded k)
  · intro hold k
    by_cases hk : k + 1 < nesting.depth
    · exact (hlevel k hk).2 (hold k hk)
    · -- Nothing is inside the innermost map, and beyond it there is no target.
      intro n hn
      have hdepth : nest.depth = nesting.depth := harranges.builds.depth_nest.trans hlen
      have hdepth' : targets'.depth = nesting.depth := harranges.builds.depth_targets.trans hlen
      have harrays : nest.arraysAt (k + 1) = [] := by
        rw [KernelNest.arraysAt, List.getD_eq_getElem?_getD, List.getElem?_eq_none (by simp; omega)]
        rfl
      refine ⟨?_, by simp [harrays, Pattern.names]⟩
      obtain ⟨o, ho', hvalue⟩ := List.mem_map.1 hn
      have hinner : o ∈ targets'.inner := Targets.mem_inner_of_mem_outputsAt (by omega) ho'
      exact harranges.not_mem_bound_of_mem_inner ho [] rfl n (List.mem_map.2 ⟨o, hinner, hvalue⟩)

/-! The first output of the outer map takes the array `b` with it. The second one still returns it:

    map i < 2:        ys <- b, zs <- b
      map j < 2:      b <- a
        a = i + j
-/

namespace Doubled

/-- The maps. -/
def nesting : Nesting :=
  ⟨[⟨{⟨"b", 4⟩},
      ⟨[⟨⟨"ys", 0⟩, .array .i32 [.ofInt32 2, .ofInt32 2] false⟩,
        ⟨⟨"zs", 1⟩, .array .i32 [.ofInt32 2, .ofInt32 2] false⟩], [], .ofInt32 2, ⟨"i", 2⟩, []⟩⟩],
    ⟨{⟨"a", 5⟩}, ⟨[⟨⟨"b", 4⟩, .array .i32 [.ofInt32 2] false⟩], [], .ofInt32 2, ⟨"j", 3⟩, []⟩⟩⟩

/-- What they produce, the arrays of the outer map as given. -/
def targets (t : Target) : Targets :=
  ⟨[t], [⟨⟨⟨"b", 4⟩, .array .i32 [.ofInt32 2] false⟩, .var ⟨"a", 5⟩⟩]⟩

/-- The first output of the outer map. -/
def first : Output := ⟨⟨⟨"ys", 0⟩, .array .i32 [.ofInt32 2, .ofInt32 2] false⟩, .var ⟨"b", 4⟩⟩

/-- The second output of the outer map. -/
def second : Output := ⟨⟨⟨"zs", 1⟩, .array .i32 [.ofInt32 2, .ofInt32 2] false⟩, .var ⟨"b", 4⟩⟩

/-- The statement at the heart. -/
def stms : List Stm := [Stm.arith .add ⟨"a", 5⟩ .i32 (.var ⟨"i", 2⟩) (.var ⟨"j", 3⟩)]

/-- The attempt to move it. -/
def attempt : Attempt := { supply := ⟨6⟩ }

/-- With one output of the outer map or with both, the names are as they should be. -/
theorem orderly (t : Target) (h : t = [first] ∨ t = [first, second]) :
    Orderly nesting (targets t) stms 6 where
  depth_eq := rfl
  nodup := by decide
  arrays := by rcases h with rfl | rfl <;> decide
  patterns := by rcases h with rfl | rfl <;> decide
  tags_declared := by rcases h with rfl | rfl <;> decide
  tags_free := by decide
  distinct := by rcases h with rfl | rfl <;> decide
  widths := by rcases h with rfl | rfl <;> decide
  checks := by rcases h with rfl | rfl <;> decide
  unread := by rcases h with rfl | rfl <;> decide
  outer := by decide
  arrays_stms := by rcases h with rfl | rfl <;> decide
  tags_stms := by decide

end Doubled

/-- The kernel has taken `b` over, and the outer map left behind returns it. -/
theorem Selection.kernelNest_dangles :
    Orderly Doubled.nesting (Doubled.targets [Doubled.first, Doubled.second]) Doubled.stms
        Doubled.attempt.supply.next ∧
      ∃ targets' nest st',
        (Selection.ofStms (Doubled.targets [Doubled.first, Doubled.second])
          Doubled.stms).kernelNest Doubled.nesting Doubled.attempt = .ok (targets', nest) st' ∧
        .var ⟨"b", 4⟩ ∈ Target.values (targets'.outputsAt 0) ∧
        ⟨"b", 4⟩ ∈ Pattern.names (nest.arraysAt 1) ∧ ¬ targets'.Grounded Doubled.stms nest := by
  have hbuilds : passes (fun r => decide (.var ⟨"b", 4⟩ ∈ Target.values (r.1.outputsAt 0) ∧
        ⟨"b", 4⟩ ∈ Pattern.names (r.2.arraysAt 1)))
      ((Selection.ofStms (Doubled.targets [Doubled.first, Doubled.second])
        Doubled.stms).kernelNest Doubled.nesting Doubled.attempt) = true := by
    decide +kernel
  obtain ⟨⟨targets', nest⟩, st', h, hnames⟩ := exists_of_passes hbuilds
  obtain ⟨hreturned, htaken⟩ := of_decide_eq_true hnames
  exact ⟨Doubled.orderly _ (Or.inr rfl), targets', nest, st', h, hreturned, htaken,
    fun hgrounded => (hgrounded 0 _ hreturned).2 htaken⟩

/-- If the outer map returns `b` once, nothing is left dangling. -/
theorem Selection.kernelNest_grounded_single :
    Orderly Doubled.nesting (Doubled.targets [Doubled.first]) Doubled.stms
        Doubled.attempt.supply.next ∧
      ∃ targets' nest st',
        (Selection.ofStms (Doubled.targets [Doubled.first]) Doubled.stms).kernelNest
          Doubled.nesting Doubled.attempt = .ok (targets', nest) st' ∧
        targets'.Grounded Doubled.stms nest := by
  have hbuilds : passes (fun r => decide (Pattern.names (r.2.arraysAt 1) = [⟨"b", 4⟩]))
      ((Selection.ofStms (Doubled.targets [Doubled.first]) Doubled.stms).kernelNest
        Doubled.nesting Doubled.attempt) = true := by
    decide +kernel
  obtain ⟨⟨targets', nest⟩, st', h, hnames⟩ := exists_of_passes hbuilds
  have ho := Doubled.orderly [Doubled.first] (Or.inl rfl)
  refine ⟨ho, targets', nest, st', h, (Selection.kernelNest_grounded_iff ho h).2 ?_⟩
  intro k hk
  obtain rfl : k = 0 := Nat.lt_one_iff.1 (Nat.lt_of_succ_lt_succ hk)
  rw [of_decide_eq_true hnames]
  exact ⟨by decide, by decide⟩

end MapNest
