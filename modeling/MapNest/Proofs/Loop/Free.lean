import MapNest.Proofs.Loop.Crosses

/-!
# `MapNest.Proofs.Loop.Free`: what a loop mentions once it stands outside a level

A loop outside a level mentions what the level mentions, what the loop inside mentions and the level
does not bind, the names in the types of carried values, and the replicated initial values
(`LoopStm.Crosses.mem_free`).
-/

set_option autoImplicit false

namespace MapNest

namespace LoopStm

variable {level : Level} {l : LoopStm} {widened : List Widened} {handed : List Handed}
  {results : List Binder} {ret : List Name} {n : Name}

/-- Outside the level the types of the carried values mention the width of the level and what they
mentioned before. -/
theorem mem_dims_outside (hwidened : List.Forall₂ level.Widens l.loop.merge widened) {w : Widened}
    (hw : w ∈ widened) (hn : .var n ∈ w.outside.param.ty.dims) :
    level.Mentions n ∨ ∃ m ∈ l.loop.merge, .var n ∈ m.param.ty.dims := by
  obtain ⟨m, hm, hwiden⟩ := exists_of_mem_right hwidened hw
  have hty : w.outside.param.ty = m.param.ty.arrayOf level.width := by
    cases hwiden with
    | reuse _ hty => exact hty
    | replicate _ hty _ => exact hty
  rw [hty, Ty.dims_arrayOf] at hn
  rcases List.mem_cons.1 hn with hn | hn
  · exact Or.inl (Or.inl hn.symm)
  · exact Or.inr ⟨m, hm, hn⟩

/-- What the copies in front of the map mention. -/
theorem mentions_of_mem_copies {inputs : List RowInput}
    (hsub : ∀ i ∈ inputs, i ∈ level.inputs)
    (hhanded : List.Forall₂ level.Hands inputs handed) {s : Stm}
    (hs : s ∈ handed.flatMap (·.copies)) (hn : n ∈ s.free) : level.Mentions n := by
  obtain ⟨h, hmem, hs⟩ := List.mem_flatMap.1 hs
  obtain ⟨i, hi, hh⟩ := exists_of_mem_right hhanded hmem
  cases hh with
  | same => cases hs
  | @copy c hty =>
    rw [List.mem_singleton.1 hs, Stm.mem_free] at hn
    rcases hn with hn | hn
    · have hn : n ∈ [i.array] := NameSet.mem_ofList.1 hn
      exact Or.inr (Or.inr (Or.inr ⟨i, hsub i hi, (List.mem_singleton.1 hn).symm⟩))
    · obtain ⟨b, hb, hn⟩ := Pattern.mem_dimNames.1 hn
      rw [List.mem_singleton.1 hb, hty] at hn
      rcases List.mem_cons.1 hn with hn | hn
      · exact Or.inl hn.symm
      · exact Or.inr (Or.inr (Or.inl ⟨i, hsub i hi, hn⟩))

/-- What the parameters of the map are rows of: the arrays handed to it, and the carried values. -/
def mapInputs (widened : List Widened) (handed : List Handed) : List RowInput :=
  handed.map (·.input) ++ widened.map fun w => ⟨w.inside.param, w.outside.param.name⟩

/-- The function of the map: one iteration of the loop. -/
def mapFunction (l : LoopStm) (level : Level) (widened : List Widened) (handed : List Handed) :
    Lambda :=
  ⟨level.index, (mapInputs widened handed).map (·.param), l.loop.body,
    widened.map (·.inside.param.ty)⟩

/-- The map draws on what is handed in and on the carried values. -/
theorem mem_mapInputs {r : RowInput} :
    r ∈ mapInputs widened handed ↔ (∃ h ∈ handed, h.input = r) ∨
      ∃ w ∈ widened, (⟨w.inside.param, w.outside.param.name⟩ : RowInput) = r := by
  rw [mapInputs, List.mem_append, List.mem_map, List.mem_map]

/-- The function binds the index of the level, what is carried, and those parameters that its body
reads. -/
theorem not_mem_of_not_mem_names (hwidened : List.Forall₂ level.Widens l.loop.merge widened)
    (hhanded : List.Forall₂ level.Hands
      (level.inputs.filter (·.param.name ∈ l.loop.reads)) handed)
    (hread : n ∈ l.loop.body.free) (hindex : n ≠ level.index)
    (hparams : n ∉ Pattern.names ((mapInputs widened handed).map (·.param))) :
    n ∉ l.loop.names ∧ n ∉ level.bound := by
  have hparam : ∀ r ∈ mapInputs widened handed, r.param.name ≠ n := by
    intro r hr hname
    exact hparams (Pattern.mem_names.2 ⟨r.param, List.mem_map_of_mem hr, hname⟩)
  constructor
  · intro hname
    obtain ⟨m, hm, rfl⟩ := List.mem_map.1 hname
    obtain ⟨w, hw, hwiden⟩ := exists_of_mem_left hwidened hm
    exact hparam _ (mem_mapInputs.2 (Or.inr ⟨w, hw, rfl⟩)) (by rw [hwiden.inside_eq])
  · intro hbound
    rcases Level.mem_bound.1 hbound with heq | ⟨i, hi, rfl⟩
    · exact hindex heq
    · -- A parameter that the body reads is a parameter of the map.
      have hkept : i ∈ level.inputs.filter (·.param.name ∈ l.loop.reads) := by
        refine List.mem_filter.2 ⟨hi, ?_⟩
        simpa [Loop.reads] using Or.inl hread
      obtain ⟨h, hmem, hh⟩ := exists_of_mem_left hhanded hkept
      exact hparam _ (mem_mapInputs.2 (Or.inl ⟨h, hmem, rfl⟩)) (by rw [hh.param_eq])

/-- What is free in one iteration comes from the level, from the body of the loop or from the types
of the carried values. -/
theorem mem_free_mapFunction (hwidened : List.Forall₂ level.Widens l.loop.merge widened)
    (hhanded : List.Forall₂ level.Hands
      (level.inputs.filter (·.param.name ∈ l.loop.reads)) handed)
    (hn : n ∈ (l.mapFunction level widened handed).free) :
    level.Mentions n ∨ (n ∈ l.loop.body.free ∧ n ∉ l.loop.names ∧ n ∉ level.bound) ∨
      ∃ m ∈ l.loop.merge, .var n ∈ m.param.ty.dims := by
  have hmerge : ∀ w ∈ widened, .var n ∈ w.inside.param.ty.dims →
      ∃ m ∈ l.loop.merge, .var n ∈ m.param.ty.dims := by
    intro w hw hdims
    obtain ⟨m, hm, hwiden⟩ := exists_of_mem_right hwidened hw
    exact ⟨m, hm, hwiden.inside_eq ▸ hdims⟩
  -- It is read by the body, or it is a size in the type of a parameter or of a result.
  obtain ⟨hbody | hdims | hdims, hindex, hparams⟩ := Lambda.mem_free.1 hn
  · exact Or.inr (Or.inl ⟨hbody, not_mem_of_not_mem_names hwidened hhanded hbody hindex hparams⟩)
  · obtain ⟨b, hb, hdims⟩ := Pattern.mem_dimNames.1 hdims
    obtain ⟨r, hr, rfl⟩ := List.mem_map.1 hb
    rcases mem_mapInputs.1 hr with ⟨h, hmem, rfl⟩ | ⟨w, hw, rfl⟩
    · obtain ⟨i, hi, hh⟩ := exists_of_mem_right hhanded hmem
      refine Or.inl (Or.inr (Or.inr (Or.inl ⟨i, (List.mem_filter.1 hi).1, ?_⟩)))
      exact hh.param_eq ▸ hdims
    · exact Or.inr (Or.inr (hmerge w hw hdims))
  · obtain ⟨ty, hty, hdims⟩ := List.mem_flatMap.1 hdims
    obtain ⟨w, hw, rfl⟩ := List.mem_map.1 hty
    exact Or.inr (Or.inr (hmerge w hw (Ty.mem_dimNames.1 hdims)))

/-- The map reads arrays of the level or copies of them, and the carried values. -/
theorem mem_arrays_mapInputs {inputs : List RowInput} (hsub : ∀ i ∈ inputs, i ∈ level.inputs)
    (hhanded : List.Forall₂ level.Hands inputs handed)
    (hn : n ∈ (mapInputs widened handed).map (·.array)) :
    level.Mentions n ∨ n ∈ Stm.patternNames (handed.flatMap (·.copies)) ∨
      n ∈ widened.map (·.outside.param.name) := by
  obtain ⟨r, hr, rfl⟩ := List.mem_map.1 hn
  rcases mem_mapInputs.1 hr with ⟨h, hmem, rfl⟩ | ⟨w, hw, rfl⟩
  · obtain ⟨i, hi, hh⟩ := exists_of_mem_right hhanded hmem
    cases hh with
    | same => exact Or.inl (Level.mentions_array (hsub i hi))
    | @copy c hty =>
      refine Or.inr (Or.inl (Stm.mem_patternNames.2 ?_))
      exact ⟨Stm.copy c i.array, List.mem_flatMap.2 ⟨_, hmem, List.mem_singleton_self _⟩,
        c, List.mem_singleton_self _, rfl⟩
  · exact Or.inr (Or.inr (List.mem_map_of_mem hw))

/-- What the map mentions, but for the copies it reads and the carried values. -/
theorem mem_free_mapStm (hwidened : List.Forall₂ level.Widens l.loop.merge widened)
    (hhanded : List.Forall₂ level.Hands
      (level.inputs.filter (·.param.name ∈ l.loop.reads)) handed)
    (hresults : List.Forall₂ (fun w r => r.ty = w.outside.param.ty) widened results)
    (hn : n ∈ (l.mapStm level widened handed results).free) :
    level.Mentions n ∨ (n ∈ l.loop.body.free ∧ n ∉ l.loop.names ∧ n ∉ level.bound) ∨
      (∃ m ∈ l.loop.merge, .var n ∈ m.param.ty.dims) ∨
      n ∈ Stm.patternNames (handed.flatMap (·.copies)) ∨
      n ∈ widened.map (·.outside.param.name) := by
  rcases Stm.mem_free.1 hn with hn | hn
  · have hn : n ∈ (Exp.map level.checks level.width (l.mapFunction level widened handed)
        ((mapInputs widened handed).map (·.array))).free := hn
    rw [Exp.free, NameSet.mem_union, NameSet.mem_ofList, List.mem_append, List.mem_append,
      Operand.mem_names, List.mem_singleton] at hn
    rcases hn with hfunction | (hcheck | hwidth) | harray
    · rcases mem_free_mapFunction hwidened hhanded hfunction with h | h | h
      · exact Or.inl h
      · exact Or.inr (Or.inl h)
      · exact Or.inr (Or.inr (Or.inl h))
    · exact Or.inl (Or.inr (Or.inl hcheck))
    · exact Or.inl (Or.inl hwidth.symm)
    · rcases mem_arrays_mapInputs (fun i hi => (List.mem_filter.1 hi).1) hhanded harray with h | h
      · exact Or.inl h
      · exact Or.inr (Or.inr (Or.inr h))
  · obtain ⟨r, hr, hdims⟩ := Pattern.mem_dimNames.1 hn
    obtain ⟨w, hw, hty⟩ := exists_of_mem_right hresults hr
    rw [hty] at hdims
    rcases mem_dims_outside hwidened hw hdims with h | h
    · exact Or.inl h
    · exact Or.inr (Or.inr (Or.inl h))

/-- The initial value outside is an array of the level, or a replication. -/
theorem init_outside_of_widens {m : Merge} {w : Widened} (hwiden : level.Widens m w)
    (hinit : w.outside.init = .var n) : level.Mentions n ∨ n ∈ Stm.patternNames w.replicates := by
  cases hwiden with
  | @reuse array i hi hty =>
    cases hinit
    obtain ⟨x, -, hi⟩ := Option.bind_eq_some_iff.1 hi
    exact Or.inl (Level.mentions_array (Level.input?_eq_some hi).1)
  | @replicate array start hi hty hstart =>
    cases hinit
    exact Or.inr (List.mem_singleton_self _)

/-- A loop outside a level mentions what the level mentions, what the loop inside mentions and the
level does not bind, names in the types of carried values, and replicated initial values. -/
theorem Crosses.mem_free {lo hi : Nat} {out : Interchanged} (h : Crosses level l lo hi out)
    (hn : n ∈ out.loop.loop.free) :
    level.Mentions n ∨ (n ∈ l.loop.free ∧ n ∉ level.bound) ∨
      (∃ m ∈ l.loop.merge, .var n ∈ m.param.ty.dims) ∨ n ∈ Stm.patternNames out.prelude := by
  cases h with
  | @intro index bound widened handed results ret a b hform hbound hwidened _ hhanded _ hresults
      _ _ _ _ =>
    rcases Loop.mem_free.1 hn with ⟨hn | hn, hindex, hnames⟩ | ⟨m', hm', hinit⟩ | hn
    · -- The body reads it: a copy does, or the map, or it is among the results of the map.
      have houtside : n ∉ widened.map (·.outside.param.name) := by
        rwa [Loop.names, outside, List.map_map] at hnames
      have hn : n ∈ (Body.ofStms _ _).free := hn
      rw [Body.mem_free_iff, Body.stms_ofStms, Body.result_ofStms, Stm.mem_freeAll_append] at hn
      rcases hn with (hn | ⟨hn, hcopies⟩) | ⟨hn, hresult⟩
      · obtain ⟨s, hs, hn⟩ := Stm.exists_of_mem_freeAll hn
        exact Or.inl (mentions_of_mem_copies (fun i hi => (List.mem_filter.1 hi).1) hhanded hs hn)
      · rcases mem_free_mapStm hwidened hhanded hresults (Stm.mem_freeAll_singleton.1 hn) with
          hn | ⟨hn, hname, hlevel⟩ | hn | hn | hn
        · exact Or.inl hn
        · exact Or.inr (Or.inl ⟨Loop.mem_free.2 (Or.inl ⟨Or.inl hn, hindex, hname⟩), hlevel⟩)
        · exact Or.inr (Or.inr (Or.inl hn))
        · exact absurd hn hcopies
        · exact absurd hn houtside
      · -- What the body yields is bound by the map.
        obtain ⟨r, hr, hvar⟩ := List.mem_map.1 hn
        cases hvar
        refine absurd ?_ hresult
        rw [Stm.mem_bound]
        exact ⟨_, List.mem_append_right _ (List.mem_singleton_self _), r, hr, rfl⟩
    · obtain ⟨b, hb, hdims⟩ := Pattern.mem_dimNames.1 hn
      obtain ⟨m, hm, rfl⟩ := List.mem_map.1 hb
      obtain ⟨w, hw, rfl⟩ := List.mem_map.1 hm
      rcases mem_dims_outside hwidened hw hdims with h | h
      · exact Or.inl h
      · exact Or.inr (Or.inr (Or.inl h))
    · obtain ⟨w, hw, rfl⟩ := List.mem_map.1 hm'
      obtain ⟨m, hm, hwiden⟩ := exists_of_mem_right hwidened hw
      rcases init_outside_of_widens hwiden hinit with h | h
      · exact Or.inl h
      · obtain ⟨s, hs, hname⟩ := Stm.mem_patternNames.1 h
        refine Or.inr (Or.inr (Or.inr (Stm.mem_patternNames.2 ?_)))
        exact ⟨s, List.mem_flatMap.2 ⟨w, hw, hs⟩, hname⟩
    · -- The number of iterations is known outside the level, or the loop would have been refused.
      have hbounds : l.loop.form.bounds = [bound] := by rw [hform]; rfl
      have hn : Operand.var n ∈ l.loop.form.bounds := hn
      refine Or.inr (Or.inl ⟨Loop.mem_free.2 (Or.inr (Or.inr hn)), ?_⟩)
      rw [hbounds] at hn
      exact hbound n (List.mem_singleton.1 hn).symm

end LoopStm

end MapNest
