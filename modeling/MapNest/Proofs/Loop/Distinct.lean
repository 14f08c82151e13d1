import Mathlib.Data.List.Perm.Basic
import MapNest.Proofs.Analysis.Mentions
import MapNest.Proofs.Loop.Crosses
import MapNest.Proofs.Nest.Origin

/-!
# `MapNest.Proofs.Loop.Distinct`: what a loop moved out of a nest binds

A loop that leaves a level takes the level's index and some of its parameters into the map that it
now runs. Its own carried values become parameters of that map, and its body stays as it is. All
other names that it binds outside are new. So the names bound are those that the loop bound before,
some of the level's, and new ones, each once (`LoopStm.Crosses.perm_binders`); and what the result
mentions was mentioned before, or is new (`LoopStm.Crosses.mentions`). Both carry over to the levels
of a nest.
-/

set_option autoImplicit false

namespace MapNest

variable {P : Name → Prop} {level : Level} {levels : List Level} {lo hi : Nat}

/-! ### Binders -/

/-- A replication binds its pattern and nothing inside. -/
theorem Level.Widens.binders_replicates {m : Merge} {w : Widened} (h : level.Widens m w) :
    Pattern.names (w.replicates.flatMap Stm.binders) = Stm.patternNames w.replicates := by
  cases h <;> rfl

/-- A copy binds its pattern and nothing inside. -/
theorem Level.Hands.binders_copies {i : RowInput} {h : Handed} (hh : level.Hands i h) :
    Pattern.names (h.copies.flatMap Stm.binders) = Stm.patternNames h.copies := by
  cases hh <;> rfl

namespace LoopStm

variable {l : LoopStm} {out : Interchanged}

/-- For each carried value its name outside is drawn, and the names of the replicates. -/
theorem count_drawn {widened : List Widened} {n : Name} :
    (widened.flatMap Widened.drawn).count n
      = (widened.map (·.outside.param.name)).count n
        + (widened.flatMap fun w => Stm.patternNames w.replicates).count n := by
  rw [← List.count_append, List.map_eq_flatMap]
  exact (List.flatMap_append_perm widened (fun w => [w.outside.param.name])
    fun w => Stm.patternNames w.replicates).symm.count_eq n

/-- The map that runs one iteration binds its results and, inside, the index of the level, what is
handed in, the carried values, and what the loop's body binds. -/
theorem names_binders_mapStm {widened : List Widened} {handed : List Handed}
    {results : List Binder} :
    Pattern.names (l.mapStm level widened handed results).binders
      = Pattern.names results ++ (level.index ::
        (Pattern.names (handed.map (·.input.param))
          ++ Pattern.names (widened.map (·.inside.param))
          ++ Pattern.names l.loop.body.binders)) := by
  simp [mapStm, Stm.binders, Exp.binders, Lambda.binders, Pattern.names, Function.comp_def]

/-- Outside a level, a loop binds what it bound inside, names of the level, and new names. -/
theorem Crosses.perm_binders (h : Crosses level l lo hi out) :
    ∃ new kept, Fresh lo hi new ∧ kept.Sublist level.names ∧
      (Pattern.names (out.prelude.flatMap Stm.binders) ++ Pattern.names out.loop.loop.binders).Perm
        (new ++ (kept ++ Pattern.names l.loop.binders)) := by
  cases h with
  | @intro index bound widened handed results ret a b _ _ hwidened hexpanded hhanded hcopied _
      hdrawn _ _ hle =>
    have hreplicates : Pattern.names ((widened.flatMap (·.replicates)).flatMap Stm.binders)
        = widened.flatMap fun w => Stm.patternNames w.replicates := by
      rw [List.flatMap_assoc, Pattern.names, List.map_flatMap]
      refine List.flatMap_congr fun w hw => ?_
      obtain ⟨m, -, hwidens⟩ := exists_of_mem_right hwidened hw
      exact hwidens.binders_replicates
    have hcopies : Pattern.names ((handed.flatMap (·.copies)).flatMap Stm.binders)
        = handed.flatMap fun h => Stm.patternNames h.copies := by
      rw [List.flatMap_assoc, Pattern.names, List.map_flatMap]
      refine List.flatMap_congr fun h hh => ?_
      obtain ⟨i, -, hhands⟩ := exists_of_mem_right hhanded hh
      exact hhands.binders_copies
    have hinside : l.loop.merge.map (·.param) = widened.map (·.inside.param) :=
      map_eq_map_of_forall₂ hwidened fun m _ w _ hw => by rw [hw.inside_eq]
    have hparams : (level.inputs.filter (·.param.name ∈ l.loop.reads)).map (·.param)
        = handed.map (·.input.param) :=
      map_eq_map_of_forall₂ hhanded fun i _ h _ hh => hh.param_eq.symm
    -- The index and the parameters that the body reads are those that the map takes along.
    have hkept :
        (level.index :: Pattern.names (handed.map (·.input.param))).Sublist level.names := by
      rw [← hparams]
      exact ((List.filter_sublist.map _).map _).cons_cons _
    have hfresh := (hexpanded.fresh.append hcopied.fresh hle.1 hle.2.1).append hdrawn.fresh
      (by omega) hle.2.2
    refine ⟨_, _, hfresh, hkept, List.perm_iff_count.2 fun m => ?_⟩
    have hloop : Pattern.names (l.outside level widened handed results ret).loop.binders
        = widened.map (·.outside.param.name) ++ Pattern.names l.loop.form.binders ++
          ((handed.flatMap fun h => Stm.patternNames h.copies) ++
            Pattern.names (l.mapStm level widened handed results).binders) := by
      rw [← hcopies, outside, Loop.binders_eq, Body.binders_ofStms]
      simp [Pattern.names, Function.comp_def]
    rw [hreplicates, hloop, names_binders_mapStm, Loop.binders_eq, hinside]
    simp only [Pattern.names_append, List.count_append, List.count_cons, count_drawn]
    omega

/-- Outside all levels of a nest as well. -/
theorem CrossesAll.perm_binders (h : CrossesAll l levels lo hi out) :
    ∃ new kept, Fresh lo hi new ∧ kept.Sublist (levels.flatMap Level.names) ∧
      (Pattern.names (out.prelude.flatMap Stm.binders) ++ Pattern.names out.loop.loop.binders).Perm
        (new ++ (kept ++ Pattern.names l.loop.binders)) := by
  induction h with
  | nil => exact ⟨[], [], .nil, List.Sublist.refl _, .refl _⟩
  | @cons level rest inner outer lo mid hi hinner houter ih =>
    obtain ⟨new, kept, hfresh, hkept, hperm⟩ := ih
    obtain ⟨new', kept', hfresh', hkept', hperm'⟩ := houter.perm_binders
    -- What is kept of the outermost level stands in front, the names drawn there come last.
    refine ⟨new ++ new', kept' ++ kept, hfresh.append hfresh' hinner.le houter.le,
      hkept'.append hkept, List.perm_iff_count.2 fun m => ?_⟩
    have hcount := hperm.count_eq m
    have hcount' := hperm'.count_eq m
    simp only [List.flatMap_append, Pattern.names_append, List.count_append] at hcount hcount' ⊢
    omega

/-- What a loop binds outside all levels is new, or a name of the levels, or it was bound inside. -/
theorem CrossesAll.mem_binders (h : CrossesAll l levels lo hi out) {n : Name}
    (hn : n ∈ Pattern.names out.loop.loop.binders) :
    lo ≤ n.tag ∨ n ∈ levels.flatMap Level.names ∨ n ∈ Pattern.names l.loop.binders := by
  obtain ⟨new, kept, hfresh, hkept, hperm⟩ := h.perm_binders
  rcases List.mem_append.1 (hperm.mem_iff.1 (List.mem_append_right _ hn)) with hnew | hold
  · exact Or.inl (hfresh.tags n hnew).1
  · exact Or.inr ((List.mem_append.1 hold).imp_left fun hmem => hkept.subset hmem)

end LoopStm

/-! ### Mentions -/

/-- What a carried value mentions outside a level it mentioned inside, or the level does, or it is
new. -/
theorem Level.Widens.mentions {m : Merge} {w : Widened} (h : level.Widens m w)
    (hlevel : ∀ n ∈ level.occurring, P n) (hinit : ∀ n, m.init = .var n → P n)
    (hdims : ∀ n ∈ m.param.ty.dimNames, P n) (hnew : ∀ n ∈ w.drawn, P n) :
    (∀ s ∈ w.replicates, ∀ n ∈ s.mentions, P n) ∧ (∀ n, w.outside.init = .var n → P n) ∧
      ∀ n ∈ w.outside.param.ty.dimNames, P n := by
  have hwidth : ∀ n, level.width = .var n → P n := fun n hn =>
    hlevel n (Level.mentions_width hn).mem_occurring
  have hrow : ∀ n, .var n ∈ level.width :: m.param.ty.dims → P n := by
    intro n hn
    rcases List.mem_cons.1 hn with hn | hn
    · exact hwidth n hn.symm
    · exact hdims n (Ty.mem_dimNames.2 hn)
  cases h with
  | @reuse array i hfind hty =>
    -- The initial value is a row of an array that the level reads already.
    obtain ⟨_, -, hi⟩ := Option.bind_eq_some_iff.1 hfind
    refine ⟨by simp, fun n hn => ?_, fun n hn => hrow n ?_⟩
    · cases hn
      exact hlevel _ (Level.mentions_array (Level.input?_eq_some hi).1).mem_occurring
    · rwa [← Ty.dims_arrayOf, ← hty, ← Ty.mem_dimNames]
  | @replicate array start hfind hty hstart =>
    refine ⟨fun s hs n hn => ?_, fun n hn => ?_, fun n hn => hrow n ?_⟩
    · rw [List.mem_singleton.1 hs] at hn
      rcases List.mem_append.1 hn with hn | hn
      · have hn : n ∈ Operand.names [level.width, m.init] := by
          simpa only [Stm.replicate, Stm.ofOp, Exp.mentions, Op.mentions] using hn
        simp only [Operand.mem_names, List.mem_cons, List.not_mem_nil, or_false] at hn
        exact hn.elim (fun h => hwidth n h.symm) fun h => hinit n h.symm
      · refine hrow n ?_
        rw [← hstart]
        simpa [Stm.replicate, Stm.ofOp] using hn
    · cases hn
      exact hnew _ (List.mem_cons_of_mem _ (List.mem_singleton_self _))
    · rwa [← Ty.dims_arrayOf, ← hty, ← Ty.mem_dimNames]

/-- A copy mentions what the level does. -/
theorem Level.Hands.mentions {i : RowInput} {h : Handed} (hh : level.Hands i h)
    (hi : i ∈ level.inputs) (hlevel : ∀ n ∈ level.occurring, P n) :
    ∀ s ∈ h.copies, ∀ n ∈ s.mentions, P n := by
  cases hh with
  | same => simp
  | @copy c hty =>
    intro s hs n hn
    rw [List.mem_singleton.1 hs] at hn
    rcases List.mem_append.1 hn with hn | hn
    · have hn : n ∈ [i.array] := by
        simpa only [Stm.copy, Stm.ofOp, Exp.mentions, Op.mentions] using hn
      exact hlevel n (List.mem_singleton.1 hn ▸ (Level.mentions_array hi).mem_occurring)
    · have hdim : .var n ∈ level.width :: i.param.ty.dims := by
        rw [← hty]
        simpa [Stm.copy, Stm.ofOp] using hn
      rcases List.mem_cons.1 hdim with hdim | hdim
      · exact hlevel n (Level.mentions_width hdim.symm).mem_occurring
      · exact hlevel n (Level.mentions_dim hi hdim).mem_occurring

/-- A map reads an array of the level or a new copy of it. -/
theorem Level.Hands.array {i : RowInput} {h : Handed} (hh : level.Hands i h) :
    h.input.array = i.array ∨ h.input.array ∈ Stm.patternNames h.copies := by
  cases hh with
  | same => exact Or.inl rfl
  | copy => exact Or.inr (List.mem_singleton_self _)

/-- The names that a loop mentions in front of its body. -/
def Loop.header (l : Loop) : List Name :=
  Operand.names (l.merge.map (·.init)) ++ Pattern.dimNames (l.merge.map (·.param)) ++
    l.form.mentions

namespace LoopStm

variable {l : LoopStm} {out : Interchanged} {widened : List Widened} {handed : List Handed}
  {results : List Binder} {ret : List Name}

/-- What a loop outside a level mentions, but for the arrays that it hands to the map, and what its
body mentioned inside. -/
def around (l : LoopStm) (level : Level) (widened : List Widened) (handed : List Handed)
    (results : List Binder) (ret : List Name) : List Name :=
  (l.outside level widened handed results ret).loop.header ++ ret ++
    (handed.flatMap (·.copies)).flatMap Stm.mentions ++ level.checks ++
    Operand.names [level.width] ++ widened.map (·.outside.param.name) ++
    Pattern.dimNames (handed.map (·.input.param)) ++
    Pattern.dimNames (widened.map (·.inside.param) ++ widened.map (·.inside.param)) ++
    Pattern.dimNames results ++ Pattern.names results

/-- The loop outside a level mentions the arrays that it hands to the map, what its body mentioned
inside, and what is around them. -/
theorem perm_mentions_outside :
    (l.outside level widened handed results ret).loop.mentions.Perm
      (handed.map (·.input.array) ++ l.loop.body.mentions ++
        l.around level widened handed results ret) := by
  have hreturned : Operand.names (Pattern.operands results) = Pattern.names results := by
    simp [Operand.names, Pattern.operands, Pattern.names, List.filterMap_map, Function.comp_def,
      Operand.name?]
  refine List.perm_iff_count.2 fun m => ?_
  rw [Loop.mentions_eq, around, Loop.header]
  simp only [outside, Body.mentions_ofStms, mapStm, Stm.mentions, Exp.mentions, Lambda.mentions,
    hreturned, Pattern.dimNames, List.flatMap_append, List.flatMap_singleton, List.flatMap_map,
    List.map_append, List.map_map, List.count_append, Function.comp_def]
  omega

/-- What is around was mentioned by the level or in front of the loop's body, or it is new. So is
what the replicates mention. -/
theorem mentions_around (hwidened : List.Forall₂ level.Widens l.loop.merge widened)
    (hhanded : ∀ h ∈ handed, ∃ i ∈ level.inputs, level.Hands i h)
    (hresults : List.Forall₂ (fun w r => r.ty = w.outside.param.ty) widened results)
    (hret : List.Forall₂ (fun n n' => ∃ w,
      widened.find? (·.inside.param.name = n) = some w ∧ w.outside.param.name = n') l.loop.ret ret)
    (hlevel : ∀ n ∈ level.occurring, P n) (hheader : ∀ n ∈ l.loop.header, P n)
    (hexpanded : ∀ n ∈ widened.flatMap Widened.drawn, P n)
    (hdrawn : ∀ n ∈ Pattern.names results, P n) :
    (∀ s ∈ widened.flatMap (·.replicates), ∀ n ∈ s.mentions, P n) ∧
      ∀ n ∈ l.around level widened handed results ret, P n := by
  simp only [Loop.header, List.mem_append, Operand.mem_names, List.mem_map] at hheader
  have houtside : ∀ w ∈ widened, P w.outside.param.name := fun w hw =>
    hexpanded _ (List.mem_flatMap.2 ⟨w, hw, List.mem_cons_self ..⟩)
  have hinside : ∀ w ∈ widened, ∀ n ∈ w.inside.param.ty.dimNames, P n := by
    intro w hw n hn
    obtain ⟨m, hm, hwidens⟩ := exists_of_mem_right hwidened hw
    rw [hwidens.inside_eq] at hn
    exact hheader n (Or.inl (Or.inr (List.mem_flatMap.2 ⟨_, List.mem_map_of_mem hm, hn⟩)))
  have hwidens : ∀ w ∈ widened, (∀ s ∈ w.replicates, ∀ n ∈ s.mentions, P n) ∧
      (∀ n, w.outside.init = .var n → P n) ∧ ∀ n ∈ w.outside.param.ty.dimNames, P n := by
    intro w hw
    obtain ⟨m, hm, hwidens⟩ := exists_of_mem_right hwidened hw
    refine hwidens.mentions hlevel (fun n hn => hheader n (Or.inl (Or.inl ⟨m, hm, hn⟩)))
      (fun n hn => hinside w hw n (hwidens.inside_eq ▸ hn)) fun n hn => ?_
    exact hexpanded n (List.mem_flatMap.2 ⟨w, hw, hn⟩)
  refine ⟨fun s hs => ?_, fun n hn => ?_⟩
  · obtain ⟨w, hw, hs⟩ := List.mem_flatMap.1 hs
    exact (hwidens w hw).1 s hs
  have hn : ((((∃ w ∈ widened, w.outside.init = .var n) ∨
      ∃ w ∈ widened, n ∈ w.outside.param.ty.dimNames) ∨ n ∈ l.loop.form.mentions) ∨ n ∈ ret ∨
      (∃ h ∈ handed, ∃ s ∈ h.copies, n ∈ s.mentions) ∨ n ∈ level.checks ∨ level.width = .var n ∨
      (∃ w ∈ widened, w.outside.param.name = n) ∨
      (∃ h ∈ handed, .var n ∈ h.input.param.ty.dims) ∨
      (∃ w ∈ widened, n ∈ w.inside.param.ty.dimNames) ∨
      (∃ r ∈ results, n ∈ r.ty.dimNames) ∨ n ∈ Pattern.names results) := by
    simp only [around, Loop.header, outside, List.mem_append, Operand.mem_names, List.mem_singleton,
      List.mem_map, List.mem_flatMap, Pattern.mem_dimNames, ← Ty.mem_dimNames] at hn ⊢
    grind
  rcases hn with ((⟨w, hw, hn⟩ | ⟨w, hw, hn⟩) | hn) | hn | ⟨h, hh, s, hs, hn⟩ | hn | hn |
    ⟨w, hw, rfl⟩ | ⟨h, hh, hn⟩ | ⟨w, hw, hn⟩ | ⟨r, hr, hn⟩ | hn
  · exact (hwidens w hw).2.1 n hn
  · exact (hwidens w hw).2.2 n hn
  · exact hheader n (Or.inr hn)
  · -- What is returned are carried values.
    obtain ⟨m, -, w, hfind, rfl⟩ := exists_of_mem_right hret hn
    exact houtside w (List.mem_of_find?_eq_some hfind)
  · obtain ⟨i, hi, hhands⟩ := hhanded h hh
    exact hhands.mentions hi hlevel s hs n hn
  · exact hlevel n (Level.mentions_check hn).mem_occurring
  · exact hlevel n (Level.mentions_width hn).mem_occurring
  · exact houtside w hw
  · obtain ⟨i, hi, hhands⟩ := hhanded h hh
    rw [hhands.param_eq] at hn
    exact hlevel n (Level.mentions_dim hi hn).mem_occurring
  · exact hinside w hw n hn
  · obtain ⟨w, hw, hty⟩ := exists_of_mem_right hresults hr
    exact (hwidens w hw).2.2 n (hty ▸ hn)
  · exact hdrawn n hn

/-- What is mentioned when a loop has left a level was mentioned before, or it is new. -/
theorem Crosses.mentions (h : Crosses level l lo hi out) (hlevel : ∀ n ∈ level.occurring, P n)
    (hloop : ∀ n ∈ l.loop.mentions, P n) (hnew : ∀ n : Name, lo ≤ n.tag → n.tag < hi → P n) :
    (∀ s ∈ out.prelude, ∀ n ∈ s.mentions, P n) ∧ ∀ n ∈ out.loop.loop.mentions, P n := by
  cases h with
  | @intro index bound widened handed results ret a b _ _ hwidened hexpanded hhanded hcopied
      hresults hdrawn hret _ hle =>
    rw [Loop.mentions_eq] at hloop
    have hhands : ∀ h ∈ handed, ∃ i ∈ level.inputs, level.Hands i h := by
      intro h hh
      obtain ⟨i, hi, hhands⟩ := exists_of_mem_right hhanded hh
      exact ⟨i, (List.mem_filter.1 hi).1, hhands⟩
    obtain ⟨hprelude, haround⟩ := mentions_around hwidened hhands hresults hret hlevel
      (fun n hn => hloop n (List.mem_append_left _ (List.mem_append_left _ hn)))
      (fun n hn => hnew n (hexpanded.2 n hn).1 (by have := hexpanded.2 n hn; omega))
      (fun n hn => hnew n (by have := hdrawn.2 n hn; omega) (hdrawn.2 n hn).2)
    refine ⟨hprelude, fun n hn => ?_⟩
    rcases List.mem_append.1 (perm_mentions_outside.mem_iff.1 hn) with hn | hn
    · rcases List.mem_append.1 hn with hn | hn
      · obtain ⟨h, hh, rfl⟩ := List.mem_map.1 hn
        obtain ⟨i, hi, hhands⟩ := hhands h hh
        rcases hhands.array with harray | hcopy
        · exact hlevel _ (harray ▸ (Level.mentions_array hi).mem_occurring)
        · have := hcopied.2 _ (List.mem_flatMap.2 ⟨h, hh, hcopy⟩)
          exact hnew _ (by omega) (by omega)
      · exact hloop n (List.mem_append_right _ hn)
    · exact haround n hn

/-- The same holds when it has left all levels of a nest. -/
theorem CrossesAll.mentions (h : CrossesAll l levels lo hi out)
    (hlevels : ∀ level ∈ levels, ∀ n ∈ level.occurring, P n) (hloop : ∀ n ∈ l.loop.mentions, P n)
    (hnew : ∀ n : Name, lo ≤ n.tag → n.tag < hi → P n) :
    (∀ s ∈ out.prelude, ∀ n ∈ s.mentions, P n) ∧ ∀ n ∈ out.loop.loop.mentions, P n := by
  induction h with
  | nil => exact ⟨by simp, hloop⟩
  | @cons level rest inner outer lo mid hi hinner houter ih =>
    have hlo := hinner.le
    have hhi := houter.le
    obtain ⟨hprelude, hmentions⟩ := ih
      (fun level' hlevel' => hlevels level' (List.mem_cons_of_mem _ hlevel'))
      fun n hn hn' => hnew n hn (by omega)
    obtain ⟨hprelude', hmentions'⟩ := houter.mentions (hlevels level (List.mem_cons_self ..))
      hmentions fun n hn hn' => hnew n (by omega) hn'
    refine ⟨fun s hs => ?_, hmentions'⟩
    rcases List.mem_append.1 hs with hs | hs
    · exact hprelude s hs
    · exact hprelude' s hs

/-! ### All levels of a nest -/

section All

variable {copyConsumed : Bool} {nest : KernelNest} {st st' : Attempt} {stms : List Stm}

/-- A loop moved out of a nest binds the arrays of the outermost level, what it bound inside, names
of the levels, and new names. -/
theorem interchangeAll_binders (h : l.interchangeAll copyConsumed nest st = .ok stms st') :
    st.supply.next ≤ st'.supply.next ∧
      ∃ new kept, Fresh st.supply.next st'.supply.next new ∧
        kept.Sublist (nest.toList.flatMap Level.names) ∧
        (Pattern.names (stms.flatMap Stm.binders)).Perm
          ((Pattern.names nest.outermost.pattern ++ (kept ++ Pattern.names l.loop.binders)) ++
            new) := by
  obtain ⟨out, hcrosses, rfl⟩ := crossesAll_of_interchangeAll_eq_ok h
  have hle := hcrosses.le
  obtain ⟨new, kept, hfresh, hkept, hperm⟩ := hcrosses.perm_binders
  obtain ⟨rest, hrest⟩ := nest.exists_toList_eq_cons
  rw [hrest] at hcrosses
  refine ⟨hle, new, kept, hfresh, hkept, List.perm_iff_count.2 fun m => ?_⟩
  have hcount := hperm.count_eq m
  simp only [List.flatMap_append, List.flatMap_singleton, Pattern.names_append, Stm.binders, toStm,
    Exp.binders, hcrosses.pattern.1, List.count_append] at hcount ⊢
  omega

/-- It mentions what occurs in the levels, what it mentioned inside, and new names. -/
theorem interchangeAll_mentions (h : l.interchangeAll copyConsumed nest st = .ok stms st')
    (hlevels : ∀ level ∈ nest.toList, ∀ n ∈ level.occurring, P n)
    (hloop : ∀ n ∈ l.loop.mentions, P n)
    (hnew : ∀ n : Name, st.supply.next ≤ n.tag → n.tag < st'.supply.next → P n) :
    ∀ s ∈ stms, ∀ n ∈ s.mentions, P n := by
  obtain ⟨out, hcrosses, rfl⟩ := crossesAll_of_interchangeAll_eq_ok h
  obtain ⟨hprelude, hmentions⟩ := hcrosses.mentions hlevels hloop hnew
  obtain ⟨rest, hrest⟩ := nest.exists_toList_eq_cons
  rw [hrest] at hcrosses
  intro s hs n hn
  rcases List.mem_append.1 hs with hs | hs
  · exact hprelude s hs n hn
  · rw [List.mem_singleton.1 hs, Stm.mentions, toStm, Exp.mentions] at hn
    rcases List.mem_append.1 hn with hn | hn
    · exact hmentions n hn
    · rw [hcrosses.pattern.1] at hn
      exact hlevels _ nest.outermost_mem n (Level.mem_occurring_of_mem_dimNames hn)

end All

end LoopStm

end MapNest
