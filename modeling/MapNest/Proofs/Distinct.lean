import MapNest.Proofs.Distribute
import MapNest.Proofs.Kernel.Distinct
import MapNest.Proofs.Loop.Distinct
import MapNest.Proofs.Nest.Distinct

/-!
# `MapNest.Proofs.Distinct`: every name is bound once

An attempt that is given a program in which every name is bound once leaves one (`moves_distinct`).
Nothing is copied on the way. A loop that leaves a nest keeps its body, and the levels' parameters
go into its maps, each at one place; a kernel takes the whole nest, and all that is bound inside it
is given fresh names. Whatever else is bound is new.

`Attempt.Distinct` is what the attempt is given. The arrays that a map produces may be bound twice
in one sense: the body around records them as its own. The same goes for the names in the patterns
of the statements, of which nothing more is asked, for what comes out binds none of them.
-/

set_option autoImplicit false

namespace MapNest

/-- Every name that an attempt is given is bound once, and has an earlier tag than new ones. Only a
name in a statement's own pattern may be bound in the nest as well. -/
structure Attempt.Distinct (st : Attempt) (nesting : Nesting) (targets : Targets)
    (stms : List Stm) : Prop where
  depth_eq : nesting.depth = targets.depth
  /-- No tag is beyond the last one. -/
  next_le : st.supply.next ≤ Supply.lastTag
  tags : ∀ n ∈ st.occurring nesting targets ++ stms.flatMap Stm.occurring, n.tag < st.supply.next
  /-- No two of the indices, parameters and names of the maps' bodies agree. -/
  names : (nesting.toList.flatMap Enclosing.names).Nodup
  /-- No two names that the statements bind agree, inside their expressions or by their patterns. -/
  binders : (Pattern.names (stms.flatMap Stm.binders)).Nodup
  /-- What is bound inside the statements' expressions is not bound in the nest. -/
  inside : ∀ s ∈ stms, ∀ n ∈ Pattern.names s.exp.binders, n ∉ nesting.bound
  arrays : targets.names.Nodup
  /-- An array is bound in the nest only by the body just around the map that produces it. -/
  bodies : ∀ x ∈ nesting.toList.zipIdx, ∀ y ∈ targets.toList.zipIdx,
    ∀ n ∈ Pattern.names (Target.pattern y.1), n ∈ x.1.names → y.2 = x.2 + 1 ∧ n ∈ x.1.letBound
  others : ∀ n ∈ targets.names, n ∉ Pattern.names (stms.flatMap Stm.binders)

/-- A name is one of those given, or its tag was drawn between two bounds. -/
def Name.From (given : List Name) (lo hi : Nat) (n : Name) : Prop :=
  n ∈ given ∨ (lo ≤ n.tag ∧ n.tag < hi)

/-- The outcome of an attempt that was given some names: every name that occurs in it was given or
is new, and the statements bind no name twice. -/
structure Moved.Distinct (moved : Moved) (given : List Name) (lo hi : Nat) : Prop where
  targets : ∀ n ∈ moved.targets.toList.flatMap Target.occurring, n.From given lo hi
  stms : ∀ n ∈ moved.stms.flatMap Stm.occurring, n.From given lo hi
  nodup : (Pattern.names (moved.stms.flatMap Stm.binders)).Nodup

section Moves

variable {settings : Settings} {nesting : Nesting} {targets : Targets} {stms : List Stm}
  {st st' : Attempt} {moved : Moved} {planned : Planned} {n : Name}

namespace Attempt.Distinct

/-- The maps bind no name twice, but that the body around a map may bind its arrays. -/
theorem apart (hd : st.Distinct nesting targets stms) :
    Apart (nesting.levels targets) st.supply.next where
  names := by
    rw [← List.flatMap_map, Nesting.map_fst_levels hd.depth_eq]
    exact hd.names
  arrays := by
    have harrays := hd.arrays
    rw [Targets.names, ← Nesting.map_snd_levels hd.depth_eq, List.flatMap_map] at harrays
    exact harrays
  bodies i j x y hx hy n hn harray := by
    have hmap := Nesting.getElem?_fst_levels hd.depth_eq hx
    have htarget := Nesting.getElem?_snd_levels hd.depth_eq hy
    exact (hd.bodies (x.1, i) (List.mem_zipIdx_iff_getElem?.2 hmap) (y.2, j)
      (List.mem_zipIdx_iff_getElem?.2 htarget) n harray hn).1
  tags n hn := by
    obtain ⟨x, hx, hn⟩ := List.mem_flatMap.1 hn
    refine hd.tags n (List.mem_append_left _ (mem_occurring hd.depth_eq hx ?_))
    rcases List.mem_append.1 hn with hn | hn
    · exact Or.inr (List.mem_append_left _ (List.mem_append_left _ hn))
    · exact Or.inl (Enclosing.mem_occurring_of_mem_names hn)

/-- What one of the maps declares is bound in the nest. -/
theorem mem_bound (hd : st.Distinct nesting targets stms) {x : Enclosing × Target}
    (hx : x ∈ nesting.levels targets) (hn : n ∈ x.1.names) : n ∈ nesting.bound :=
  Nesting.mem_bound.2 ⟨x.1, (Nesting.mem_of_mem_levels hd.depth_eq hx).1, Enclosing.mem_names.1 hn⟩

/-- An array that one of the maps produces is among the arrays of the targets. -/
theorem mem_arrays (hd : st.Distinct nesting targets stms) {x : Enclosing × Target}
    (hx : x ∈ nesting.levels targets) (hn : n ∈ Pattern.names (Target.pattern x.2)) :
    n ∈ targets.names :=
  List.mem_flatMap.2 ⟨x.2, (Nesting.mem_of_mem_levels hd.depth_eq hx).2, hn⟩

/-- A parameter of a map is not bound by its body. -/
theorem not_mem_letBound (hd : st.Distinct nesting targets stms) {e : Enclosing}
    (he : e ∈ nesting.toList) {i : RowInput} (hi : i ∈ e.level.inputs) :
    i.param.name ∉ e.letBound := by
  have hnames := (List.nodup_flatMap.1 hd.names).1 e he
  rw [Enclosing.names, List.nodup_cons, List.nodup_append] at hnames
  intro hlet
  exact hnames.2.2.2 _ (Level.mem_names_params.2 ⟨i, hi, rfl⟩) _ (NameSet.mem_toList.2 hlet) rfl

end Attempt.Distinct

/-- What occurs in a nest that is planned, and in the targets, was given or is new. -/
theorem plan_occurring (hd : st.Distinct nesting targets stms)
    (h : plan nesting targets stms st = .ok planned st') {P : Name → Prop}
    (hold : ∀ n ∈ st.occurring nesting targets ++ stms.flatMap Stm.occurring, P n)
    (hnew : ∀ n : Name, st.supply.next ≤ n.tag → n.tag < st'.supply.next → P n) :
    (∀ l ∈ planned.nest.toList, ∀ n ∈ l.occurring, P n) ∧
      ∀ t ∈ planned.targets.toList, ∀ n ∈ Target.occurring t, P n :=
  Selection.occurring_of_kernelNest_eq_ok (plan_eq_ok h).1 hd.next_le
    (fun n hn => hold n (List.mem_append_left _ hn)) hnew

/-- The arrays of the outermost level and those left behind have tags drawn before. -/
theorem plan_tags (hd : st.Distinct nesting targets stms)
    (h : plan nesting targets stms st = .ok planned st') (hle : st.supply.next ≤ st'.supply.next) :
    (∀ l ∈ planned.nest.toList, ∀ n ∈ l.occurring, n.tag < st'.supply.next) ∧
      ∀ n ∈ planned.targets.names, n.tag < st'.supply.next := by
  obtain ⟨hlevels, htargets⟩ := plan_occurring (P := fun n => n.tag < st'.supply.next) hd h
    (fun n hn => by have := hd.tags n hn; omega) fun n _ hn => hn
  refine ⟨hlevels, fun n hn => ?_⟩
  obtain ⟨t, ht, hn⟩ := List.mem_flatMap.1 hn
  exact htargets t ht n (List.mem_append_left _ (List.mem_append_left _ hn))

/-- What occurs in some statements is bound or mentioned there. -/
theorem Stm.forall_occurring {P : Name → Prop} {names : List Name}
    (hperm : (Pattern.names (stms.flatMap Stm.binders)).Perm names) (hnames : ∀ n ∈ names, P n)
    (hmentions : ∀ s ∈ stms, ∀ n ∈ s.mentions, P n) : ∀ n ∈ stms.flatMap Stm.occurring, P n := by
  intro n hn
  obtain ⟨s, hs, hn⟩ := List.mem_flatMap.1 hn
  rcases List.mem_append.1 hn with hn | hn
  · obtain ⟨b, hb, rfl⟩ := Pattern.mem_names.1 hn
    refine hnames _ (hperm.mem_iff.1 ?_)
    exact List.mem_map_of_mem (List.mem_flatMap.2 ⟨s, hs, hb⟩)
  · exact hmentions s hs n hn

/-! ### Kernels -/

/-- What the body of a kernel mentions the statements mention or bind. -/
theorem mentions_ofStms_results (hresults :
      planned.results = (Selection.ofStms targets stms).results planned.nest)
    (hn : n ∈ (Body.ofStms stms planned.results).mentions) : n ∈ stms.flatMap Stm.occurring := by
  rw [Body.mentions_ofStms, List.mem_append, hresults] at hn
  rcases hn with hn | hn
  · obtain ⟨x, hx, hn⟩ := List.mem_flatMap.1 hn
    exact List.mem_flatMap.2 ⟨x, hx, List.mem_append_right _ hn⟩
  · obtain ⟨x, hx, b, hb, rfl⟩ :=
      Stm.mem_bound.1 (Selection.mem_bound_of_mem_results (Operand.mem_names.1 hn))
    refine List.mem_flatMap.2 ⟨x, hx, List.mem_append_left _ ?_⟩
    exact List.mem_map_of_mem (List.mem_append_left _ hb)

/-- Statements moved into a kernel bind new names, but for the arrays of the outermost level. -/
theorem distribute_distinct (hd : st.Distinct nesting targets stms)
    (hfreshen : settings.freshenKernels = true)
    (h : distribute settings nesting targets stms st = .ok moved st') :
    moved.Distinct (st.occurring nesting targets ++ stms.flatMap Stm.occurring) st.supply.next
        st'.supply.next ∧
      (Pattern.names (moved.stms.flatMap Stm.binders) ++ moved.targets.names).Nodup ∧
      ∀ s ∈ moved.stms, ∀ n ∈ Pattern.names s.exp.binders,
        st.supply.next ≤ n.tag ∧ n.tag < st'.supply.next := by
  rcases distribute_eq_ok h with ⟨-, rfl⟩ |
    ⟨planned, s, flat, supply, kernel, log, hplan, hflat, hfinish, rfl⟩
  · refine ⟨⟨fun n hn => Or.inl ?_, by simp, .nil⟩, hd.arrays, by simp⟩
    exact List.mem_append_left _ (List.mem_append_left _ (List.mem_append_right _ hn))
  · obtain ⟨hnest, hresults⟩ := plan_eq_ok hplan
    obtain ⟨-, demand, harranges⟩ := Selection.arranges_of_kernelNest_eq_ok hnest
    obtain ⟨hle', ⟨new, hfresh, hperm⟩, hinside⟩ := kernel_binders hflat hfreshen hfinish
    dsimp only at hle' hfresh hinside
    have hle := harranges.builds.le
    -- Arrays that were planned are distinct, and all other names are younger than they are.
    have hnodup : (Pattern.names ((flat.prelude ++ [kernel]).flatMap Stm.binders) ++
        planned.targets.names).Nodup := by
      obtain ⟨hlevels, htargets⟩ := plan_tags hd hplan hle
      have hold := hfresh.nodup_append (harranges.nodup_arrays hd.apart) fun n hn => by
        rcases List.mem_append.1 hn with hn | hn
        · exact hlevels _ planned.nest.outermost_mem n (Level.mem_occurring_of_mem_pattern hn)
        · exact htargets n hn
      refine (List.perm_iff_count.2 fun n => ?_).nodup_iff.1 hold
      have hcount := hperm.count_eq n
      simp only [List.count_append] at hcount ⊢
      omega
    have hnew : ∀ n : Name, st.supply.next ≤ n.tag → n.tag < st'.supply.next →
        n.From (st.occurring nesting targets ++ stms.flatMap Stm.occurring) st.supply.next
          st'.supply.next := fun n hn hn' => Or.inr ⟨hn, hn'⟩
    obtain ⟨hlevels, htargets⟩ := plan_occurring hd hplan (fun n hn => Or.inl hn)
      fun n hn hn' => hnew n hn (by omega)
    have hmentions := kernel_mentions hflat hfreshen hfinish hlevels
      (fun n hn => Or.inl (List.mem_append_right _ (mentions_ofStms_results hresults hn)))
      fun n hn hn' => hnew n (by omega) hn'
    refine ⟨⟨fun n hn => ?_, Stm.forall_occurring hperm (fun n hn => ?_) hmentions,
      (List.nodup_append.1 hnodup).1⟩, hnodup, fun x hx n hn => ?_⟩
    · obtain ⟨t, ht, hn⟩ := List.mem_flatMap.1 hn
      exact htargets t ht n hn
    · rcases List.mem_append.1 hn with hn | hn
      · exact hlevels _ planned.nest.outermost_mem n (Level.mem_occurring_of_mem_pattern hn)
      · have := hfresh.tags n hn
        exact hnew n (by omega) this.2
    · have := hinside x hx n hn
      omega

/-! ### Loops -/

/-- What the levels of a planned nest bind, and the arrays of the outermost one, the loop at its
heart does not bind. -/
theorem plan_disjoint (hd : st.Distinct nesting targets stms)
    (h : plan nesting targets stms st = .ok planned st') {s : Stm} (hs : s ∈ stms)
    (hn : n ∈ planned.nest.toList.flatMap Level.names ∨
      n ∈ Pattern.names planned.nest.outermost.pattern) : n ∉ Pattern.names s.exp.binders := by
  intro hinside
  obtain ⟨-, demand, harranges⟩ := Selection.arranges_of_kernelNest_eq_ok (plan_eq_ok h).1
  have hbuilds := harranges.builds
  have hbinder : n ∈ Pattern.names s.binders := by
    rw [Stm.binders, Pattern.names_append]
    exact List.mem_append_right _ hinside
  have hold : n.tag < st.supply.next := hd.tags n (List.mem_append_right _
    (List.mem_flatMap.2 ⟨s, hs, List.mem_append_left _ hbinder⟩))
  -- What a map produces no statement binds.
  have harray : ∀ x ∈ nesting.levels targets, n ∉ Pattern.names (Target.pattern x.2) := by
    intro x hx hmem
    refine hd.others n (hd.mem_arrays hx hmem) ?_
    obtain ⟨b, hb, rfl⟩ := Pattern.mem_names.1 hbinder
    exact List.mem_map_of_mem (List.mem_flatMap.2 ⟨s, hs, hb⟩)
  rcases hn with hn | hn
  · -- A level binds names of its map, and arrays that are handed in from further inside.
    rcases hbuilds.bound_origin hn with ⟨x, hx, hn⟩ | ⟨t, ht, hn⟩
    · exact hd.inside s hs n hinside (hd.mem_bound hx hn)
    · rcases hbuilds.inner_origin ht hn with ⟨x, hx, hn⟩ | hnew
      · exact harray x (List.mem_of_mem_tail hx) hn
      · omega
  · -- The arrays of the outermost level were produced before, or they are new.
    rcases hbuilds.pattern_origin hn with hproduced | hnew
    · obtain ⟨x, hx, hn⟩ := exists_of_mem_produced hproduced
      exact harray x hx hn
    · omega

/-- The arrays of the outermost level, names of the levels, and what a statement binds inside are
distinct. -/
theorem plan_nodup (hd : st.Distinct nesting targets stms)
    (h : plan nesting targets stms st = .ok planned st') {s : Stm} (hs : s ∈ stms)
    {kept : List Name} (hkept : kept.Sublist (planned.nest.toList.flatMap Level.names)) :
    (Pattern.names planned.nest.outermost.pattern ++
      (kept ++ Pattern.names s.exp.binders)).Nodup := by
  obtain ⟨-, demand, harranges⟩ := Selection.arranges_of_kernelNest_eq_ok (plan_eq_ok h).1
  have hinside : (Pattern.names s.exp.binders).Nodup := by
    have hbinders := hd.binders
    rw [Pattern.names, List.map_flatMap] at hbinders
    have hs := (List.nodup_flatMap.1 hbinders).1 s hs
    rw [Stm.binders, List.map_append] at hs
    exact (List.nodup_append.1 hs).2.1
  refine List.nodup_append.2 ⟨(List.nodup_append.1 (harranges.nodup_arrays hd.apart)).1,
    List.nodup_append.2 ⟨(harranges.nodup_levels hd.apart).sublist hkept, hinside, ?_⟩, ?_⟩
  · rintro n hn m hm rfl
    exact plan_disjoint hd h hs (Or.inl (hkept.subset hn)) hm
  · rintro n hn m hm rfl
    rcases List.mem_append.1 hm with hm | hm
    · exact harranges.disjoint_pattern hd.apart hn (hkept.subset hm)
    · exact plan_disjoint hd h hs (Or.inr hn) hm

/-- A selection binds inside what the loop does, and mentions no more. -/
theorem LoopStm.loop_of_selection {l l' : LoopStm} {values : List Operand}
    (h : l.select? values = some l') :
    l'.loop.binders = l.loop.binders ∧ ∀ n ∈ l'.loop.mentions, n ∈ l.loop.mentions := by
  have hret := fun n => mem_ret_of_select?_eq_some h (n := n)
  obtain ⟨ret, hloop⟩ := loop_of_select?_eq_some h
  rw [hloop] at hret ⊢
  refine ⟨by rw [Loop.binders_eq, Loop.binders_eq], fun n hn => ?_⟩
  simp only [Loop.mentions_eq, List.mem_append] at hn ⊢
  exact hn.imp_left fun hn => hn.imp_right fun hn => hret n hn

/-- A loop moved out of a nest binds new names, the names that it bound inside, and names of the
levels. -/
theorem interchange_distinct {stm : Stm} (hd : st.Distinct nesting targets [stm])
    (h : interchange settings nesting targets stm st = .ok moved st') :
    moved.Distinct (st.occurring nesting targets ++ [stm].flatMap Stm.occurring) st.supply.next
      st'.supply.next := by
  obtain ⟨l, l', planned, s, hstm, hplan, hselect, hrun, htargets'⟩ := interchange_eq_ok h
  obtain rfl := LoopStm.toStm_of_ofStm?_eq_some hstm
  obtain ⟨-, demand, harranges⟩ := Selection.arranges_of_kernelNest_eq_ok (plan_eq_ok hplan).1
  obtain ⟨hbinders, hmentions⟩ := LoopStm.loop_of_selection hselect
  obtain ⟨hle', new, kept, hfresh, hkept, hperm⟩ := LoopStm.interchangeAll_binders hrun
  have hle := harranges.builds.le
  rw [hbinders] at hperm
  have hexp : l.toStm.exp.binders = l.loop.binders := by
    rw [LoopStm.toStm, Exp.binders]
  -- What the loop at the heart binds and mentions the attempt was given.
  have hinside : ∀ n ∈ Pattern.names l.loop.binders, n ∈ [l.toStm].flatMap Stm.occurring := by
    intro n hn
    rw [List.flatMap_singleton, Stm.occurring, Stm.binders, hexp, Pattern.names_append]
    exact List.mem_append_left _ (List.mem_append_right _ hn)
  have hmention : ∀ n ∈ l'.loop.mentions, n ∈ [l.toStm].flatMap Stm.occurring := by
    intro n hn
    rw [List.flatMap_singleton, Stm.occurring, Stm.mentions, LoopStm.toStm, Exp.mentions]
    exact List.mem_append_right _ (List.mem_append_left _ (hmentions n hn))
  -- Some names that are bound have a property if what occurs in the levels and in the loop does.
  have hnames : ∀ {P : Name → Prop}, (∀ l ∈ planned.nest.toList, ∀ n ∈ l.occurring, P n) →
      (∀ n ∈ [l.toStm].flatMap Stm.occurring, P n) →
      ∀ n ∈ Pattern.names planned.nest.outermost.pattern ++
        (kept ++ Pattern.names l.loop.binders), P n := by
    intro P hlevels hloop n hn
    rw [List.mem_append, List.mem_append] at hn
    rcases hn with hn | hn | hn
    · exact hlevels _ planned.nest.outermost_mem n (Level.mem_occurring_of_mem_pattern hn)
    · obtain ⟨level, hlevel, hn⟩ := List.mem_flatMap.1 (hkept.subset hn)
      exact hlevels level hlevel n (Level.mem_occurring_of_mem_bound (Level.mem_names.1 hn))
    · exact hloop n (hinside n hn)
  have hnew : ∀ n : Name, st.supply.next ≤ n.tag → n.tag < st'.supply.next →
      n.From (st.occurring nesting targets ++ [l.toStm].flatMap Stm.occurring) st.supply.next
        st'.supply.next := fun n hn hn' => Or.inr ⟨hn, hn'⟩
  obtain ⟨hlevels, htargets⟩ := plan_occurring hd hplan (fun n hn => Or.inl hn)
    fun n hn hn' => hnew n hn (by omega)
  refine ⟨fun n hn => ?_, Stm.forall_occurring hperm (fun n hn => ?_) ?_, ?_⟩
  · rw [htargets'] at hn
    obtain ⟨t, ht, hn⟩ := List.mem_flatMap.1 hn
    exact htargets t ht n hn
  · rcases List.mem_append.1 hn with hn | hn
    · exact hnames hlevels (fun n hn => Or.inl (List.mem_append_right _ hn)) n hn
    · have := hfresh.tags n hn
      exact hnew n (by omega) this.2
  · exact LoopStm.interchangeAll_mentions hrun hlevels
      (fun n hn => Or.inl (List.mem_append_right _ (hmention n hn)))
      fun n hn hn' => hnew n (by omega) hn'
  · refine hperm.nodup_iff.2 (hfresh.nodup_append ?_ (hnames (plan_tags hd hplan hle).1 ?_))
    · rw [← hexp]
      exact plan_nodup hd hplan (List.mem_singleton_self _) hkept
    · intro n hn
      have := hd.tags n (List.mem_append_right _ hn)
      omega

/-- Every name stays bound once. Suppose that an attempt is given a nest, targets and statements in
which every name is bound once. Whatever occurs in the outcome of a move occurred there or is new,
and the statements that now stand in front of the nest bind no name twice. If statements are moved
into a kernel with fresh names, then neither do they and the targets together, and inside their
expressions they bind new names only. -/
theorem moves_distinct (hd : st.Distinct nesting targets stms) (settings : Settings) :
    (settings.freshenKernels = true → ∀ (moved : Moved) (st' : Attempt),
      distribute settings nesting targets stms st = .ok moved st' →
        moved.Distinct (st.occurring nesting targets ++ stms.flatMap Stm.occurring)
            st.supply.next st'.supply.next ∧
          (Pattern.names (moved.stms.flatMap Stm.binders) ++ moved.targets.names).Nodup ∧
          ∀ s ∈ moved.stms, ∀ n ∈ Pattern.names s.exp.binders,
            st.supply.next ≤ n.tag ∧ n.tag < st'.supply.next) ∧
    ∀ stm, stms = [stm] → ∀ (moved : Moved) (st' : Attempt),
      interchange settings nesting targets stm st = .ok moved st' →
        moved.Distinct (st.occurring nesting targets ++ stms.flatMap Stm.occurring)
          st.supply.next st'.supply.next := by
  refine ⟨fun hfreshen moved st' h => distribute_distinct hd hfreshen h, ?_⟩
  rintro stm rfl moved st' h
  exact interchange_distinct hd h

end Moves

/-! Two maps. The moved statement reads `y`, which the inner map computes before, and `c`:

    map i < 2 (xs <- xss):
      c = i
      map j < 3 (x <- xs):
        y = x
        b = y + c

The inner map left behind returns `y` into a new array, which the outer one returns in turn. -/

namespace Shifted

/-- The maps. The body of the inner one records `b` as its own. -/
def nesting : Nesting :=
  ⟨[⟨.ofList [⟨"c", 3⟩, ⟨"ys", 4⟩],
      ⟨[⟨⟨"yss", 0⟩, .array .i32 [.ofInt32 2, .ofInt32 3] false⟩], [], .ofInt32 2, ⟨"i", 1⟩,
        [⟨⟨⟨"xs", 2⟩, .array .i32 [.ofInt32 3] false⟩, ⟨"xss", 9⟩⟩]⟩⟩],
    ⟨.ofList [⟨"y", 8⟩, ⟨"b", 7⟩],
      ⟨[⟨⟨"ys", 4⟩, .array .i32 [.ofInt32 3] false⟩], [], .ofInt32 3, ⟨"j", 5⟩,
        [⟨⟨⟨"x", 6⟩, .scalar .i32⟩, ⟨"xs", 2⟩⟩]⟩⟩⟩

/-- What they produce. -/
def targets : Targets :=
  ⟨[[⟨⟨⟨"yss", 0⟩, .array .i32 [.ofInt32 2, .ofInt32 3] false⟩, .var ⟨"ys", 4⟩⟩]],
    [⟨⟨⟨"ys", 4⟩, .array .i32 [.ofInt32 3] false⟩, .var ⟨"b", 7⟩⟩]⟩

/-- The statement that is moved. -/
def stm : Stm := Stm.arith .add ⟨"b", 7⟩ .i32 (.var ⟨"y", 8⟩) (.var ⟨"c", 3⟩)

/-- A loop in its place. -/
def loop : LoopStm :=
  ⟨[⟨⟨"b", 7⟩, .scalar .i32⟩],
    ⟨[⟨"acc", 10⟩], [⟨⟨⟨"acc", 10⟩, .scalar .i32⟩, .var ⟨"y", 8⟩⟩],
      .forBelow ⟨"k", 11⟩ (.ofInt32 5),
      .ofStms [Stm.arith .add ⟨"s", 12⟩ .i32 (.var ⟨"acc", 10⟩) (.var ⟨"c", 3⟩)]
        [.var ⟨"s", 12⟩]⟩⟩

/-- The attempt to move them. -/
def attempt : Attempt :=
  { supply := ⟨13⟩
    scope := (∅ : Scope).insertAll [⟨⟨"c", 3⟩, .scalar .i32⟩, ⟨⟨"y", 8⟩, .scalar .i32⟩] }

/-- No two names that these maps and the statement bind agree. -/
theorem distinct : attempt.Distinct nesting targets [stm] := by
  constructor <;> decide +kernel

/-- The same holds with the loop. -/
theorem distinct_loop : attempt.Distinct nesting targets [loop.toStm] := by
  constructor <;> decide +kernel

end Shifted

/-- Both moves bind no name twice here, and the kernel leaves no clash with the arrays of the maps
left behind. -/
theorem moves_distinct_shifted :
    Shifted.attempt.Distinct Shifted.nesting Shifted.targets [Shifted.stm] ∧
      Shifted.attempt.Distinct Shifted.nesting Shifted.targets [Shifted.loop.toStm] ∧
      (∃ moved st',
        distribute {} Shifted.nesting Shifted.targets [Shifted.stm] Shifted.attempt
            = .ok moved st' ∧
          (Pattern.names (moved.stms.flatMap Stm.binders) ++ moved.targets.names).Nodup) ∧
      ∃ moved st',
        interchange {} Shifted.nesting Shifted.targets Shifted.loop.toStm Shifted.attempt
            = .ok moved st' ∧
          (Pattern.names (moved.stms.flatMap Stm.binders)).Nodup := by
  have hdistributes : passes (fun moved => decide (moved.stms.length = 2))
      (distribute {} Shifted.nesting Shifted.targets [Shifted.stm] Shifted.attempt) = true := by
    decide +kernel
  have hinterchanges : passes (fun moved => decide (moved.stms.length = 1))
      (interchange {} Shifted.nesting Shifted.targets Shifted.loop.toStm Shifted.attempt)
        = true := by
    decide +kernel
  obtain ⟨moved, st', hmoved, -⟩ := exists_of_passes hdistributes
  obtain ⟨moved', st'', hmoved', -⟩ := exists_of_passes hinterchanges
  have hkernel := ((moves_distinct Shifted.distinct {}).1 rfl moved st' hmoved).2.1
  have hloop := ((moves_distinct Shifted.distinct_loop {}).2 _ rfl moved' st'' hmoved').nodup
  exact ⟨Shifted.distinct, Shifted.distinct_loop, ⟨moved, st', hmoved, hkernel⟩,
    moved', st'', hmoved', hloop⟩

end MapNest
