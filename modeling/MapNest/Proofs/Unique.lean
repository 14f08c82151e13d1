import MapNest.Proofs.Analysis.Consumed
import MapNest.Proofs.Distinct
import MapNest.Proofs.Kernel.Enter
import MapNest.Proofs.Nest.Accounts

/-!
# `MapNest.Proofs.Unique`: what a kernel may overwrite

An array that goes to a parameter of unique type is gone where it came from, because the body may
overwrite it. A level takes such arrays only where that is needed: a parameter keeps a unique type
just if its value is consumed further inside, by the statements or because a level inside takes it
for a unique parameter of its own (`Attempt.Distinct.isUnique_iff`).

What the levels inside consume is handed outwards as the demand, and each level drops what it binds
(`Demand.around`). No two levels bind one name, so nothing is dropped that a level further out
could be asked for (`Demand.mem_consumed_aroundAll`). The rest says where the parameters of a level
come from and that they are typed as they were there (`Arranges.origin_of_mem_inputs`).
-/

set_option autoImplicit false

namespace MapNest

/-! ### What levels consume -/

section Levels

variable {n : Name} {l : Level} {levels : List Level} {d : Demand}

/-- A level consumes the arrays of its unique parameters. -/
theorem Level.mem_consumed :
    n ∈ l.consumed ↔ ∃ r ∈ l.inputs, r.param.ty.isUnique ∧ r.array = n := by
  rw [consumed, NameSet.mem_ofList, mem_drawnUnique]
  simp only [List.mem_map, Prod.mk.injEq]
  grind

/-- A parameter has a unique type after the demand is known if it had one and is consumed. -/
theorem RowInput.isUnique_demote {consumed : NameSet} {i : RowInput} :
    (i.demote consumed).param.ty.isUnique ↔ i.param.ty.isUnique ∧ i.param.name ∈ consumed := by
  unfold demote
  split
  · rename_i hn
    simp [hn]
  · rename_i hn
    have hreadOnly : i.param.readOnly.ty.isUnique = false := by
      unfold Binder.readOnly
      cases i.param.ty <;> rfl
    simp [hn, hreadOnly]

/-- Outside some levels that do not bind a name it is consumed just if it was before, or one of the
levels takes it. -/
theorem Demand.mem_consumed_aroundAll (h : ∀ l ∈ levels, n ∉ l.bound) :
    n ∈ (d.aroundAll levels).consumed ↔ n ∈ d.consumed ∨ ∃ l ∈ levels, n ∈ l.consumed := by
  induction levels with
  | nil => simp [aroundAll]
  | cons l levels ih =>
    obtain ⟨hl, hlevels⟩ := List.forall_mem_cons.1 h
    show n ∈ ((d.aroundAll levels).consumed \ l.bound) ∪ l.consumed ↔ _
    rw [NameSet.mem_union, NameSet.mem_sdiff, ih hlevels, List.exists_mem_cons_iff,
      and_iff_left hl]
    grind

end Levels

/-! ### Where parameters come from -/

section Origin

variable {scope : Scope} {s : Selection} {bound : NameSet} {levels : List (Enclosing × Target)}
  {lo hi : Nat} {built : Built}

/-- Where a parameter of a level comes from: it is one of the map's own, or a name that the map's
body binds or that the map just inside leaves behind, with the type it has in scope. -/
def RowInput.From (i : RowInput) (scope : Scope) (e : Enclosing) (below : Target) : Prop :=
  i ∈ e.level.inputs ∨
    ((i.param.name ∈ e.letBound ∨ i.param.name ∈ Pattern.names (Target.pattern below)) ∧
      scope.lookup? i.param.name = some i.param.ty)

/-- The captures of a frame bring in names of the map's body and of the map just inside. -/
theorem Frame.Closes.from_of_mem_inputs {f : Frame} {demand : Demand} {captures : List Capture}
    {below : Target} (h : f.Closes bound demand captures lo hi)
    (hbelow : ∀ n ∈ f.below, n ∈ Pattern.names (Target.pattern below))
    (hletTags : ∀ n ∈ f.enclosing.letBound, n.tag < lo)
    (hbelowTags : ∀ n ∈ f.below, n.tag < lo)
    (htyped : ∀ c ∈ captures, c.Typed scope lo) {r : RowInput}
    (hr : r ∈ (f.closed demand captures).inputs) :
    ∃ i : RowInput, i.demote demand.consumed = r ∧ i.From scope f.enclosing below := by
  obtain ⟨i, ⟨hown, -⟩ | ⟨c, hc, rfl⟩, rfl⟩ := Frame.mem_inputs_closed.1 hr
  · exact ⟨i, rfl, Or.inl hown⟩
  · rcases (Frame.of_mem_captured (h.mem_captured hc)).1 with hlet | hmem
    · exact ⟨c.input, rfl, Or.inr ⟨Or.inl hlet, (htyped c hc).param (hletTags _ hlet)⟩⟩
    · exact ⟨c.input, rfl, Or.inr
        ⟨Or.inr (hbelow _ hmem), (htyped c hc).param (hbelowTags _ hmem)⟩⟩

namespace Arranges

/-- Each parameter of a level comes from its map or from the level's surroundings, and is read only
unless the levels inside or the statements consume its values. -/
theorem origin_of_mem_inputs (h : Arranges scope s bound levels lo hi built) :
    (∀ n ∈ declared levels, n.tag < lo) →
    ∀ {k : Nat} {e : Enclosing} {t : Target} {l : Level}, levels[k]? = some (e, t) →
      built.nest.toList[k]? = some l → ∀ r ∈ l.inputs, ∃ i : RowInput,
        i.demote (Demand.aroundAll ⟨s.free ∩ bound, s.consumed ∩ bound⟩
          (built.nest.toList.drop (k + 1))).consumed = r ∧
        i.From scope e (built.targets.outputsAt (k + 1)) := by
  induction h with
  | @innermost position e t captures lo hi _ hcloses _ htyped =>
    intro htags k e' t' l hk hl r hr
    obtain rfl : k = 0 := by
      have := (List.getElem?_eq_some_iff.1 hk).1
      simpa using this
    cases hk
    cases hl
    refine hcloses.from_of_mem_inputs ?_ ?_ ?_ htyped hr
    · intro n hn
      exact absurd hn NameSet.not_mem_empty
    · exact fun n hn => htags n (mem_declared_of_mem_letBound hn)
    · intro n hn
      exact absurd hn NameSet.not_mem_empty
  | @enclose within position e t built d new captures lo mid top hi hwithin _ _ _ hle hcloses _
      htyped ih =>
    intro htags k e' t' l hk hl r hr
    have hlo := hwithin.builds.le
    have hinner : ∀ n ∈ declared within, n.tag < lo := fun n hn =>
      htags n (mem_declared_cons_of_mem hn)
    rw [Stack.toList_pushOuter, Stack.toList_map] at hl ⊢
    cases k with
    | zero =>
      cases hk
      cases hl
      rw [List.drop_succ_cons, List.drop_zero, Demand.aroundAll_map_permute,
        ← hwithin.builds.demand_eq]
      refine hcloses.from_of_mem_inputs (fun n hn => ?_) (fun n hn => ?_) (fun n hn => ?_)
        htyped hr
      · show n ∈ Pattern.names (Target.pattern (built.targets.outputsAt 0))
        rw [Targets.outputsAt_zero]
        exact NameSet.mem_ofList.1 hn
      · have := htags n (mem_declared_of_mem_letBound hn)
        omega
      · rcases hwithin.builds.declared_of_mem_outermost (NameSet.mem_ofList.1 hn) with hold | hnew
        · have := hinner n hold
          omega
        · omega
    | succ k =>
      -- Inside, only the order of the arrays has changed.
      rw [List.getElem?_cons_succ, List.getElem?_map, Option.map_eq_some_iff] at hl
      obtain ⟨l, hl, rfl⟩ := hl
      rw [List.drop_succ_cons, ← List.map_drop, Demand.aroundAll_map_permute]
      exact ih hinner hk hl r hr

end Arranges

end Origin

/-! ### The theorem -/

/-- The type of a name before it is handed to a level: that of the map's own parameter; that of a
name bound in the map's body; or that of an array that the map just inside returns, be it an array
that had a type before or a new one. -/
inductive Enclosing.Source (st : Attempt) (e : Enclosing) (below : Target) (n : Name) : Ty → Prop
  | param {i : RowInput} (hi : i ∈ e.level.inputs) (hname : i.param.name = n) :
      e.Source st below n i.param.ty
  | letBound {ty : Ty} (hbody : n ∈ e.letBound) (hty : st.scope.lookup? n = some ty) :
      e.Source st below n ty
  | array {o : Output} {ty : Ty} (ho : o ∈ below) (hname : o.binder.name = n)
      (hold : n.tag < st.supply.next) (hty : st.scope.lookup? n = some ty) : e.Source st below n ty
  | new {o : Output} (ho : o ∈ below) (hname : o.binder.name = n)
      (hnew : st.supply.next ≤ n.tag) : e.Source st below n o.binder.ty

namespace Attempt.Distinct

variable {nesting : Nesting} {targets targets' : Targets} {stms : List Stm} {nest : KernelNest}
  {st st' : Attempt} {n : Name} {k : Nat} {e : Enclosing} {l : Level}

/-- What a map of the nest declares is older than the names that are drawn now. -/
theorem tag_of_mem_bound (hd : st.Distinct nesting targets stms) (he : e ∈ nesting.toList)
    (hn : n ∈ e.names) : n.tag < st.supply.next := by
  obtain ⟨x, hx, rfl⟩ := (Nesting.mem_toList_iff hd.depth_eq).1 he
  exact hd.apart.tag_of_mem_names hx hn

/-- The parameters of a map have different names. -/
theorem input_eq_of_name_eq (hd : st.Distinct nesting targets stms) (he : e ∈ nesting.toList)
    {i j : RowInput} (hi : i ∈ e.level.inputs) (hj : j ∈ e.level.inputs)
    (hname : i.param.name = j.param.name) : i = j := by
  have hnodup := (List.nodup_cons.1 (Enclosing.nodup_params
    ((List.nodup_flatMap.1 hd.names).1 e he))).2
  rw [Pattern.names, Level.params, List.map_map] at hnodup
  exact List.inj_on_of_nodup_map hnodup hi hj hname

/-- What the statements consume has an earlier tag. -/
theorem tag_of_mem_consumedAll (hd : st.Distinct nesting targets stms)
    (hn : n ∈ Stm.consumedAll stms) : n.tag < st.supply.next := by
  refine hd.tags n (List.mem_append_right _ ?_)
  rcases Stm.mem_freeAll_of_mem_consumedAll hn with hfree | hbinder
  · obtain ⟨s, hs, hfree⟩ := Stm.exists_of_mem_freeAll hfree
    refine List.mem_flatMap.2 ⟨s, hs, List.mem_append_right _ ?_⟩
    rcases Stm.mem_free.1 hfree with hfree | hdim
    · exact List.mem_append_left _ (Exp.mem_mentions_of_mem_free hfree)
    · exact List.mem_append_right _ hdim
  · obtain ⟨b, hb, rfl⟩ := Pattern.mem_names.1 hbinder
    obtain ⟨s, hs, hb⟩ := List.mem_flatMap.1 hb
    exact List.mem_flatMap.2 ⟨s, hs, List.mem_append_left _ (List.mem_map_of_mem hb)⟩

/-- The statements do not consume an array that a map produces, if they do not read it. -/
theorem not_mem_consumedAll (hd : st.Distinct nesting targets stms)
    (hunread : ∀ n ∈ targets.names, n ∉ Stm.freeAll stms) (hn : n ∈ targets.names) :
    n ∉ Stm.consumedAll stms := by
  intro hconsumed
  rcases Stm.mem_freeAll_of_mem_consumedAll hconsumed with hfree | hbinder
  · exact hunread n hn hfree
  · exact hd.others n hn hbinder

section Run

variable (hd : st.Distinct nesting targets stms)
  (h : (Selection.ofStms targets stms).kernelNest nesting st = .ok (targets', nest) st')

include hd h

/-- An array left behind at a level was an array of the level before, or it is new and has a
type. -/
theorem output_origin {o : Output} (ho : o ∈ targets'.outputsAt k) :
    (o.binder.name.tag < st.supply.next ∧
        ∃ t, targets.toList[k]? = some t ∧ o.binder.name ∈ Pattern.names (Target.pattern t)) ∨
      (st.supply.next ≤ o.binder.name.tag ∧
        st'.scope.lookup? o.binder.name = some o.binder.ty) := by
  obtain ⟨-, demand, harranges⟩ := Selection.arranges_of_kernelNest_eq_ok h
  by_cases hnew : st.supply.next ≤ o.binder.name.tag
  · exact Or.inr ⟨hnew, harranges.lookup_of_new hd.apart.tags _
      (Targets.outputsAt_mem_toList ho) o ho hnew⟩
  · -- An old array was one of the target of the map at this level.
    rw [Targets.outputsAt, List.getD_eq_getElem?_getD] at ho
    cases ht' : targets'.toList[k]? with
    | none =>
      rw [ht'] at ho
      cases ho
    | some t' =>
      rw [ht'] at ho
      obtain ⟨x, hx, horigin⟩ := exists_of_getElem?_right harranges.builds.outputs_origin ht'
      have ht := Nesting.getElem?_snd_levels hd.depth_eq hx
      rcases horigin o ho with hold | ⟨hlo, -⟩
      · exact Or.inl ⟨Nat.lt_of_not_le hnew, x.2, ht, Target.mem_names_pattern.2 ⟨o, hold, rfl⟩⟩
      · exact absurd hlo hnew

/-- What a level is handed has one type: that of the map's parameter, or else the type it has in
the scope at the end. -/
theorem type_of_source {ty : Ty} (hk : nesting.toList[k]? = some e)
    (hs : e.Source st (targets'.outputsAt (k + 1)) n ty) :
    (∃ i ∈ e.level.inputs, i.param.name = n ∧ i.param.ty = ty) ∨
      ((∀ i ∈ e.level.inputs, i.param.name ≠ n) ∧ st'.scope.lookup? n = some ty) := by
  have he := List.mem_of_getElem? hk
  have hlater := Selection.later_of_kernelNest_eq_ok h
  have hparam : ∀ i ∈ e.level.inputs, i.param.name ∈ e.names := fun i hi =>
    Enclosing.mem_names.2 (Enclosing.param_mem_bound hi)
  cases hs with
  | param hi hname => exact Or.inl ⟨_, hi, hname, rfl⟩
  | letBound hbody hty =>
    refine Or.inr ⟨?_, ?_⟩
    · rintro i hi rfl
      exact hd.not_mem_letBound he hi hbody
    · have hn := Enclosing.mem_names.2 (Enclosing.mem_bound.2 (Or.inl hbody))
      rw [hlater.types n (hd.tag_of_mem_bound he hn), hty]
  | array ho hname hold hty =>
    refine Or.inr ⟨?_, (hlater.types n hold).trans hty⟩
    -- The body around a map may bind its arrays, but not as a parameter.
    rintro i hi rfl
    rcases hd.output_origin h ho with ⟨-, t, ht, hmem⟩ | ⟨hnew, -⟩
    · refine hd.not_mem_letBound he hi ?_
      exact (hd.bodies (e, k) (List.mem_zipIdx_iff_getElem?.2 hk) (t, k + 1)
        (List.mem_zipIdx_iff_getElem?.2 ht) _ (hname ▸ hmem) (hparam i hi)).2
    · rw [hname] at hnew
      omega
  | new ho hname hnew =>
    refine Or.inr ⟨?_, ?_⟩
    · rintro i hi rfl
      have := hd.tag_of_mem_bound he (hparam i hi)
      omega
    · rcases hd.output_origin h ho with ⟨hold, -⟩ | ⟨-, hty⟩
      · rw [hname] at hold
        omega
      · rw [← hname, hty]

/-- Where an input of the finished level comes from gives the type that its parameter had before. -/
theorem source_of_from {i : RowInput} (hk : nesting.toList[k]? = some e)
    (hi : i.From st'.scope e (targets'.outputsAt (k + 1))) :
    e.Source st (targets'.outputsAt (k + 1)) i.param.name i.param.ty := by
  have hlater := Selection.later_of_kernelNest_eq_ok h
  rcases hi with hown | ⟨hlet | hbelow, hty⟩
  · exact .param hown rfl
  · have hn := Enclosing.mem_names.2 (Enclosing.mem_bound.2 (Or.inl hlet))
    refine .letBound hlet ?_
    rw [← hlater.types _ (hd.tag_of_mem_bound (List.mem_of_getElem? hk) hn), hty]
  · obtain ⟨o, ho, hname⟩ := Target.mem_names_pattern.1 hbelow
    rcases hd.output_origin h ho with ⟨hold, -⟩ | ⟨hnew, htyped⟩
    · rw [hname] at hold
      exact .array ho hname hold ((hlater.types _ hold).symm.trans hty)
    · rw [hname] at hnew htyped
      rw [Option.some.inj (hty.symm.trans htyped)]
      exact .new ho hname hnew

/-- What the statements consume of what a level is handed is bound in the nest. -/
theorem mem_bound_of_from {i : RowInput} (hunread : ∀ n ∈ targets.names, n ∉ Stm.freeAll stms)
    (hk : nesting.toList[k]? = some e) (hi : i.From st'.scope e (targets'.outputsAt (k + 1)))
    (hconsumed : i.param.name ∈ Stm.consumedAll stms) : i.param.name ∈ nesting.bound := by
  refine Nesting.mem_bound.2 ⟨e, List.mem_of_getElem? hk, Enclosing.mem_bound.2 ?_⟩
  rcases hi with hown | ⟨hlet | hbelow, -⟩
  · exact Or.inr (Level.param_mem_bound hown)
  · exact Or.inl hlet
  · -- An array of the map inside is not consumed, old or new.
    obtain ⟨o, ho, hname⟩ := Target.mem_names_pattern.1 hbelow
    have htag := hd.tag_of_mem_consumedAll hconsumed
    rw [← hname] at hconsumed htag
    rcases hd.output_origin h ho with ⟨-, t, ht, hmem⟩ | ⟨hnew, -⟩
    · refine absurd hconsumed (hd.not_mem_consumedAll hunread ?_)
      exact List.mem_flatMap.2 ⟨t, List.mem_of_getElem? ht, hmem⟩
    · omega

/-- A parameter of a level has a unique type just if it was unique where it comes from and either
the statements consume it or a level further inside takes it for a unique parameter. -/
theorem isUnique_iff (hunread : ∀ n ∈ targets.names, n ∉ Stm.freeAll stms)
    (hl : nest.toList[k]? = some l) :
    ∃ e, nesting.toList[k]? = some e ∧ ∀ r ∈ l.inputs,
      ∃ i : RowInput, i.From st'.scope e (targets'.outputsAt (k + 1)) ∧
        i.param.name = r.param.name ∧
        (r.param.ty.isUnique ↔ i.param.ty.isUnique ∧ (r.param.name ∈ Stm.consumedAll stms ∨
          ∃ l' ∈ nest.toList.drop (k + 1), r.param.name ∈ l'.consumed)) := by
  obtain ⟨-, demand, harranges⟩ := Selection.arranges_of_kernelNest_eq_ok h
  obtain ⟨x, hx, -⟩ := exists_of_getElem?_right harranges.builds.forall₂ hl
  have hk := Nesting.getElem?_fst_levels hd.depth_eq hx
  refine ⟨x.1, hk, fun r hr => ?_⟩
  obtain ⟨i, rfl, hi⟩ := harranges.origin_of_mem_inputs hd.apart.tags hx hl r hr
  rw [RowInput.name_demote] at *
  refine ⟨i, hi, rfl, ?_⟩
  -- No level further inside binds the parameter, so none drops it from the demand.
  have hinner : ∀ l' ∈ nest.toList.drop (k + 1), i.param.name ∉ l'.bound := by
    intro l' hl' hbound
    obtain ⟨hlt, rfl⟩ := List.getElem?_eq_some_iff.1 hl
    have hnodup := harranges.nodup_levels hd.apart
    rw [← List.take_append_drop k nest.toList, List.drop_eq_getElem_cons hlt, List.flatMap_append,
      List.flatMap_cons] at hnodup
    have hown := (List.nodup_append.1 (List.nodup_append.1 hnodup).2.1).2.2
    refine hown _ (Level.mem_names.2 (Level.mem_bound.2 (Or.inr ⟨_, hr, RowInput.name_demote⟩))) _
      (List.mem_flatMap.2 ⟨l', hl', Level.mem_names.2 hbound⟩) rfl
  rw [RowInput.isUnique_demote, Demand.mem_consumed_aroundAll hinner, NameSet.mem_inter]
  refine and_congr_right fun _ => or_congr_left ⟨And.left, fun hconsumed => ⟨hconsumed, ?_⟩⟩
  exact hd.mem_bound_of_from h hunread hk hi hconsumed

/-- A level binds no name that the statements consume, if it binds none of the nest's that they
consume. -/
theorem param_not_mem_consumedAll (hunread : ∀ n ∈ targets.names, n ∉ Stm.freeAll stms)
    (hkept : ∀ n ∈ Stm.consumedAll stms, n ∈ nesting.bound → n ∉ nest.bound)
    (hl : l ∈ nest.toList) {r : RowInput} (hr : r ∈ l.inputs) :
    r.param.name ∉ Stm.consumedAll stms := by
  obtain ⟨k, hk⟩ := List.getElem?_of_mem hl
  obtain ⟨e, he, hinputs⟩ := hd.isUnique_iff h hunread hk
  obtain ⟨i, hi, hname, -⟩ := hinputs r hr
  intro hconsumed
  have hbound := hd.mem_bound_of_from h hunread he hi (hname ▸ hconsumed)
  exact hkept _ hconsumed (hname ▸ hbound)
    (KernelNest.mem_bound.2 ⟨l, hl, Level.param_mem_bound hr⟩)

/-- Then no level takes an array for a unique parameter. -/
theorem isUnique_eq_false (hunread : ∀ n ∈ targets.names, n ∉ Stm.freeAll stms)
    (hkept : ∀ n ∈ Stm.consumedAll stms, n ∈ nesting.bound → n ∉ nest.bound) :
    ∀ l ∈ nest.toList, ∀ r ∈ l.inputs, r.param.ty.isUnique = false := by
  -- From the innermost level outwards: what no level inside takes, the next one need not have.
  have hdrop : ∀ j k, k + j = nest.toList.length →
      ∀ l ∈ nest.toList.drop k, ∀ r ∈ l.inputs, r.param.ty.isUnique = false := by
    intro j
    induction j with
    | zero =>
      intro k hk l hl
      rw [List.drop_of_length_le (by omega)] at hl
      cases hl
    | succ j ih =>
      intro k hk l hl r hr
      have hinner := ih (k + 1) (by omega)
      have hlt : k < nest.toList.length := by omega
      rw [List.drop_eq_getElem_cons hlt] at hl
      rcases List.mem_cons.1 hl with rfl | hl
      · have hmem := List.getElem_mem hlt
        obtain ⟨e, -, hinputs⟩ := hd.isUnique_iff h hunread (List.getElem?_eq_getElem hlt)
        obtain ⟨i, -, -, hiff⟩ := hinputs r hr
        rw [← Bool.not_eq_true, hiff]
        rintro ⟨-, hconsumed | ⟨l', hl', htaken⟩⟩
        · exact hd.param_not_mem_consumedAll h hunread hkept hmem hr hconsumed
        · obtain ⟨r', hr', hunique, -⟩ := Level.mem_consumed.1 htaken
          rw [hinner l' hl' r' hr'] at hunique
          cases hunique
      · exact hinner l hl r hr
  exact hdrop _ 0 (Nat.zero_add _)

/-- Then the kernel consumes what the statements consume. -/
theorem consumed_flatten (hunread : ∀ n ∈ targets.names, n ∉ Stm.freeAll stms)
    (hkept : ∀ n ∈ Stm.consumedAll stms, n ∈ nesting.bound → n ∉ nest.bound)
    {values : List Operand} {supply supply' : Supply} {flat : FlatKernel}
    (hflat : nest.flatten (.ofStms stms values) supply = .ok flat supply') :
    flat.stm.consumed = Stm.consumedAll stms := by
  obtain ⟨width, thread, s, -, -, -, hstm⟩ := KernelNest.flatten_eq_ok hflat
  refine NameSet.ext fun n => ?_
  rw [hstm]
  show n ∈ (nest.kernel _ width thread).consumed ↔ _
  -- Every parameter of the kernel is one of a level.
  have hparam : ∀ i ∈ (nest.kernel (.ofStms stms values) width thread).inputs,
      ∃ l ∈ nest.toList, ∃ r ∈ l.inputs, r.param = i.param := fun i hi =>
    Level.exists_mem_flattenAll_iff.1 ⟨i, (KernelNest.mem_inputs_kernel.1 hi).1, rfl⟩
  rw [Kernel.mem_consumed, Body.consumed_eq]
  show (n ∈ Stm.consumedAll (Body.ofStms stms values).stms ∧ _) ∨ _ ↔ _
  rw [Body.stms_ofStms]
  constructor
  · rintro (⟨hn, -⟩ | ⟨i, hi, -, hunique⟩)
    · exact hn
    · obtain ⟨l, hl, r, hr, heq⟩ := hparam i hi
      rw [← heq, hd.isUnique_eq_false h hunread hkept l hl r hr] at hunique
      cases hunique
  · intro hn
    refine Or.inl ⟨hn, fun i hi hname => ?_⟩
    obtain ⟨l, hl, r, hr, heq⟩ := hparam i hi
    refine hd.param_not_mem_consumedAll h hunread hkept hl hr ?_
    rwa [heq, hname]

end Run

end Attempt.Distinct

/-- Uniqueness survives just where it is needed. In a kernel nest for statements that read no array
of the targets, a parameter of a level has a unique type if and only if its type was unique where it
comes from, and it is consumed by the statements or it is the array of a unique parameter further
inside. If the statements consume nothing that the nest binds, the kernel consumes just what they
consume. -/
theorem Selection.kernelNest_isUnique_iff {nesting : Nesting} {targets targets' : Targets}
    {stms : List Stm} {nest : KernelNest} {st st' : Attempt}
    (hd : st.Distinct nesting targets stms)
    (hunread : ∀ n ∈ targets.names, n ∉ Stm.freeAll stms)
    (h : (Selection.ofStms targets stms).kernelNest nesting st = .ok (targets', nest) st') :
    (∀ k l, nest.toList[k]? = some l → ∃ e, nesting.toList[k]? = some e ∧ ∀ r ∈ l.inputs,
      (∃ ty, e.Source st (targets'.outputsAt (k + 1)) r.param.name ty) ∧
      ∀ ty, e.Source st (targets'.outputsAt (k + 1)) r.param.name ty →
        (r.param.ty.isUnique ↔ ty.isUnique ∧ (r.param.name ∈ Stm.consumedAll stms ∨
          ∃ l' ∈ nest.toList.drop (k + 1), ∃ r' ∈ l'.inputs,
            r'.param.ty.isUnique ∧ r'.array = r.param.name))) ∧
    ((∀ n ∈ Stm.consumedAll stms, n ∈ nesting.bound → n ∉ nest.bound) →
      ∀ values supply flat supply',
        nest.flatten (.ofStms stms values) supply = .ok flat supply' →
        flat.stm.consumed = Stm.consumedAll stms) := by
  refine ⟨fun k l hl => ?_, fun hkept values supply flat supply' hflat =>
    hd.consumed_flatten h hunread hkept hflat⟩
  obtain ⟨e, hk, hinputs⟩ := hd.isUnique_iff h hunread hl
  refine ⟨e, hk, fun r hr => ?_⟩
  obtain ⟨i, hi, hname, hiff⟩ := hinputs r hr
  have hsource := hd.source_of_from h hk hi
  refine ⟨⟨i.param.ty, hname ▸ hsource⟩, fun ty hty => ?_⟩
  -- A name that is handed in comes from one place, so it has one type there.
  have heq : i.param.ty = ty := by
    have hother := hd.type_of_source h hk hty
    rw [← hname] at hother
    rcases hd.type_of_source h hk hsource with ⟨j, hj, hjname, hjty⟩ | ⟨hno, hlookup⟩
    · rcases hother with ⟨j', hj', hjname', hjty'⟩ | ⟨hno', -⟩
      · rw [← hjty, ← hjty', hd.input_eq_of_name_eq (List.mem_of_getElem? hk) hj hj'
          (hjname.trans hjname'.symm)]
      · exact absurd hjname (hno' j hj)
    · rcases hother with ⟨j', hj', hjname', -⟩ | ⟨-, hlookup'⟩
      · exact absurd hjname' (hno j' hj')
      · exact Option.some.inj (hlookup.symm.trans hlookup')
  rw [hiff, heq]
  simp only [Level.mem_consumed]

/-! Two maps whose parameters are unique. The inner one computes `d` and the statements overwrite
`x` and `d`, but only read `y`:

    map i < 2 (xs <- xss, ys <- yss):
      map j < 3 (x <- xs, y <- ys):
        d = copy y
        b = x with [0] <- 1
        c = d with [0] <- 1
        e = y

So `xs` stays unique with `x`, and `ys` becomes read only with `y`. The array that hands in `d` is
unique at both levels. Statements that overwrite an array from outside leave nothing unique. -/

namespace Updates

/-- Unique arrays of integers in some dimensions. -/
def ints (dims : List Int32) : Ty := .array .i32 (dims.map .ofInt32) true

/-- The maps. -/
def nesting : Nesting :=
  ⟨[⟨.ofList [⟨"zs", 0⟩], ⟨[⟨⟨"zss", 1⟩, ints [2, 3, 4]⟩], [], .ofInt32 2, ⟨"i", 2⟩,
      [⟨⟨⟨"xs", 3⟩, ints [3, 4]⟩, ⟨"xss", 4⟩⟩, ⟨⟨⟨"ys", 5⟩, ints [3, 4]⟩, ⟨"yss", 6⟩⟩]⟩⟩],
    ⟨.ofList [⟨"d", 7⟩, ⟨"b", 8⟩], ⟨[⟨⟨"zs", 0⟩, ints [3, 4]⟩], [], .ofInt32 3, ⟨"j", 9⟩,
      [⟨⟨⟨"x", 10⟩, ints [4]⟩, ⟨"xs", 3⟩⟩, ⟨⟨⟨"y", 11⟩, ints [4]⟩, ⟨"ys", 5⟩⟩]⟩⟩⟩

/-- What they produce. -/
def targets : Targets :=
  ⟨[[⟨⟨⟨"zss", 1⟩, ints [2, 3, 4]⟩, .var ⟨"zs", 0⟩⟩]],
    [⟨⟨⟨"zs", 0⟩, ints [3, 4]⟩, .var ⟨"b", 8⟩⟩]⟩

/-- An array whose first element is overwritten. -/
def overwrite (b source : Name) : Stm :=
  ⟨[⟨b, ints [4]⟩], .update [] source [.ofInt32 0] (.ofInt32 1)⟩

/-- Statements that overwrite what the nest binds. -/
def stms : List Stm :=
  [overwrite ⟨"b", 8⟩ ⟨"x", 10⟩, overwrite ⟨"c", 12⟩ ⟨"d", 7⟩,
    Stm.ofOp ⟨⟨"e", 13⟩, ints [4]⟩ (.value (.var ⟨"y", 11⟩))]

/-- Statements that overwrite an array from outside. -/
def others : List Stm :=
  [overwrite ⟨"b", 8⟩ ⟨"w", 14⟩, Stm.ofOp ⟨⟨"e", 13⟩, ints [4]⟩ (.value (.var ⟨"y", 11⟩))]

/-- The attempt to move them. -/
def attempt : Attempt := { supply := ⟨15⟩, scope := (∅ : Scope).insert ⟨⟨"d", 7⟩, ints [4]⟩ }

/-- No two names that these maps and statements bind agree. -/
theorem distinct : attempt.Distinct nesting targets stms := by
  constructor <;> decide +kernel

/-- The same holds with the other statements. -/
theorem distinct_others : attempt.Distinct nesting targets others := by
  constructor <;> decide +kernel

end Updates

/-- At both levels of these nests the unique parameters are those of unique types that are
overwritten further inside, and the kernel of the second one consumes the array from outside and no
other. -/
theorem Selection.kernelNest_isUnique_updates :
    (∃ targets' nest st', (Selection.ofStms Updates.targets Updates.stms).kernelNest Updates.nesting
          Updates.attempt = .ok (targets', nest) st' ∧
        nest.toList.map (fun l => l.inputs.map fun r => (r.param.name.base, r.param.ty.isUnique))
          = [[("xs", true), ("ys", false), ("d_r", true)],
              [("x", true), ("y", false), ("d", true)]] ∧
        ∀ k l, nest.toList[k]? = some l → ∃ e, Updates.nesting.toList[k]? = some e ∧
          ∀ r ∈ l.inputs, ∃ ty,
            e.Source Updates.attempt (targets'.outputsAt (k + 1)) r.param.name ty ∧
            (r.param.ty.isUnique ↔ ty.isUnique ∧ (r.param.name ∈ Stm.consumedAll Updates.stms ∨
              ∃ l' ∈ nest.toList.drop (k + 1), ∃ r' ∈ l'.inputs,
                r'.param.ty.isUnique ∧ r'.array = r.param.name))) ∧
      ∃ targets' nest st' flat supply',
        (Selection.ofStms Updates.targets Updates.others).kernelNest Updates.nesting Updates.attempt
          = .ok (targets', nest) st' ∧
        nest.flatten (.ofStms Updates.others [.var ⟨"b", 8⟩]) ⟨20⟩ = .ok flat supply' ∧
        flat.stm.consumed = {⟨"w", 14⟩} := by
  constructor
  · have hruns : passes (fun r => decide (r.2.toList.map (fun l => l.inputs.map fun i =>
          (i.param.name.base, i.param.ty.isUnique))
        = [[("xs", true), ("ys", false), ("d_r", true)],
            [("x", true), ("y", false), ("d", true)]]))
        ((Selection.ofStms Updates.targets Updates.stms).kernelNest Updates.nesting Updates.attempt)
          = true := by
      decide +kernel
    obtain ⟨⟨targets', nest⟩, st', h, htest⟩ := exists_of_passes hruns
    refine ⟨targets', nest, st', h, of_decide_eq_true htest, fun k l hl => ?_⟩
    obtain ⟨e, he, hall⟩ :=
      (Selection.kernelNest_isUnique_iff Updates.distinct (by decide +kernel) h).1 k l hl
    refine ⟨e, he, fun r hr => ?_⟩
    obtain ⟨⟨ty, hty⟩, hiff⟩ := hall r hr
    exact ⟨ty, hty, hiff ty hty⟩
  · have hruns : passes (fun r => decide (∀ n ∈ (Stm.consumedAll Updates.others).toList,
            n ∉ Updates.nesting.bound) &&
          passes (fun _ => true) (r.2.flatten (.ofStms Updates.others [.var ⟨"b", 8⟩]) ⟨20⟩))
        ((Selection.ofStms Updates.targets Updates.others).kernelNest Updates.nesting
          Updates.attempt) = true := by
      decide +kernel
    obtain ⟨⟨targets', nest⟩, st', h, htest⟩ := exists_of_passes hruns
    obtain ⟨hkept, hpasses⟩ := Bool.and_eq_true_iff.1 htest
    obtain ⟨flat, supply', hflat, -⟩ := exists_of_passes hpasses
    refine ⟨targets', nest, st', flat, supply', h, hflat, ?_⟩
    have hconsumed : flat.stm.consumed = Stm.consumedAll Updates.others := by
      refine (Selection.kernelNest_isUnique_iff Updates.distinct_others (by decide +kernel) h).2
        (fun n hn hbound => ?_) _ _ _ _ hflat
      exact absurd hbound (of_decide_eq_true hkept n (NameSet.mem_toList.2 hn))
    exact hconsumed.trans (by decide +kernel)

end MapNest
