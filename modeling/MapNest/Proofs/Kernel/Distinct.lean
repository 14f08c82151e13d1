import MapNest.Proofs.Freshen.Binds
import MapNest.Proofs.Kernel.Flatten
import MapNest.Proofs.Kernel.Reduce
import MapNest.Proofs.Moves
import MapNest.Proofs.Nest.Origin

/-!
# `MapNest.Proofs.Kernel.Distinct`: what a finished kernel binds

Flattening moves the indices and parameters of all levels into one kernel, and mentions nothing that
the levels and the body do not (`KernelNest.mentions_kernel`). If fresh names are asked for, all
that is bound inside the kernel is renamed, so that nothing is left of the names it had
(`finish_distinct`). Reducing a kernel to an operation on a whole array loses names and adds none
(`Stm.reduce_eq_ok`).
-/

set_option autoImplicit false

namespace MapNest

variable {P : Name → Prop} {n : Name}

/-! ### Mentions -/

/-- The kernel of a nest mentions what occurs in the levels, the number of points, and what its body
does. -/
theorem KernelNest.mentions_kernel {nest : KernelNest} {body : Body} {width : Operand}
    {thread : Name} (hlevels : ∀ l ∈ nest.toList, ∀ m ∈ l.occurring, P m)
    (hwidth : ∀ m, width = .var m → P m) (hbody : ∀ m ∈ body.mentions, P m) :
    ∀ m ∈ (nest.kernel body width thread).mentions, P m := by
  intro m hm
  rcases Kernel.mem_mentions.1 hm with hm | hm | ⟨i, hi, hm⟩
  · exact hbody m hm
  · rcases hm with hcheck | hw | ⟨a, ha, hsize⟩ | ⟨i, hi, rfl | hdim⟩ | ⟨o, ho, hdim⟩
    · exact hlevels _ nest.outermost_mem m (Level.mentions_check hcheck).mem_occurring
    · exact hwidth m hw
    · obtain ⟨l, hl, rfl⟩ := List.mem_map.1 ha
      exact hlevels l hl m (Level.mentions_width hsize).mem_occurring
    · obtain ⟨l, hl, r, hr, harray⟩ := Level.input_of_mem_flattenAll (mem_inputs_kernel.1 hi).1
      exact hlevels l hl _ (harray ▸ (Level.mentions_array hr).mem_occurring)
    · obtain ⟨l, hl, r, hr, hparam⟩ :=
        Level.exists_mem_flattenAll_iff.1 ⟨i, (mem_inputs_kernel.1 hi).1, rfl⟩
      rw [← hparam] at hdim
      exact hlevels l hl m (Level.mentions_dim hr hdim).mem_occurring
    · -- A result is a row of an array of the innermost level.
      obtain ⟨b, hb, rfl⟩ := List.mem_map.1 ho
      have hdrop : .var m ∈ b.ty.dims.drop 1 := by rwa [← Ty.dims_dropDims]
      refine hlevels _ nest.inner_mem m (Level.mem_occurring_of_mem_dimNames ?_)
      exact Pattern.mem_dimNames.2 ⟨b, hb, List.mem_of_mem_drop hdrop⟩
  · obtain ⟨l, hl, heq⟩ := Level.index_of_mem_flattenAll (mem_inputs_kernel.1 hi).1 hm
    cases heq
    exact hlevels l hl _ (Level.mem_occurring_of_mem_bound (Level.mem_bound.2 (Or.inl rfl)))

/-- Flattening binds new names in front of the kernel, and the kernel binds the arrays of the
outermost level. -/
theorem KernelNest.flatten_distinct {nest : KernelNest} {body : Body} {supply supply' : Supply}
    {flat : FlatKernel} (h : nest.flatten body supply = .ok flat supply') :
    flat.stm.pattern = nest.outermost.pattern ∧
      Drawn supply.next supply'.next (Pattern.names (flat.prelude.flatMap Stm.binders)) ∧
      (∀ s ∈ flat.prelude, s.exp.binders = []) ∧ supply.next ≤ supply'.next := by
  obtain ⟨width, thread, s₁, hwidth, -, hle, hstm⟩ := flatten_eq_ok h
  obtain ⟨hdrawn, hnone, hle'⟩ := multiplyWidths_drawn hwidth
  have hnames : Pattern.names (flat.prelude.flatMap Stm.binders)
      = Stm.patternNames flat.prelude := by
    rw [Stm.patternNames, Pattern.names, List.map_flatMap]
    refine List.flatMap_congr fun s hs => ?_
    rw [Stm.binders, hnone s hs, List.append_nil]
    rfl
  rw [hstm, hnames]
  exact ⟨rfl, hdrawn.mono (Nat.le_refl _) hle, hnone, Nat.le_trans hle' hle⟩

/-- What the kernel and the statements in front of it mention occurs in the levels, or the body
mentions it, or it is new. -/
theorem KernelNest.flatten_mentions {nest : KernelNest} {body : Body} {supply supply' : Supply}
    {flat : FlatKernel} (h : nest.flatten body supply = .ok flat supply')
    (hlevels : ∀ l ∈ nest.toList, ∀ m ∈ l.occurring, P m) (hbody : ∀ m ∈ body.mentions, P m)
    (hnew : ∀ m : Name, supply.next ≤ m.tag → m.tag < supply'.next → P m) :
    ∀ s ∈ flat.prelude ++ [flat.stm], ∀ m ∈ s.mentions, P m := by
  obtain ⟨width, thread, s₁, hwidth, -, hle, hstm⟩ := flatten_eq_ok h
  have hwidths : ∀ l ∈ nest.toList, ∀ m, l.width = .var m → P m := fun l hl m hm =>
    hlevels l hl m (Level.mentions_width hm).mem_occurring
  -- The number of points is computed from the widths, in front of the kernel.
  obtain ⟨htotal, hproduct⟩ := multiplyWidths_mentions (P := P)
    (fun w hw m hm => by
      obtain ⟨l, hl, rfl⟩ := List.mem_map.1 (List.mem_of_mem_tail hw)
      exact hwidths l hl m hm)
    (hwidths _ nest.outermost_mem) (fun m hm hm' => hnew m hm (by omega)) hwidth
  intro s hs m hm
  rcases List.mem_append.1 hs with hs | hs
  · exact hproduct s hs m hm
  · rw [List.mem_singleton.1 hs, hstm, Stm.mentions, List.mem_append] at hm
    rcases hm with hm | hm
    · refine mentions_kernel hlevels htotal hbody m
        (?_ : m ∈ (nest.kernel body width thread).mentions)
      simpa only [Exp.mentions] using hm
    · exact hlevels _ nest.outermost_mem m (Level.mem_occurring_of_mem_dimNames hm)

/-! ### Reducing a kernel -/

/-- The operation on a whole array mentions what the kernel does. -/
theorem Kernel.mentions_wholeOp? {k : Kernel} {op : Op} (h : k.wholeOp? = .ok (some op))
    (hn : n ∈ op.mentions) : n ∈ k.mentions := by
  obtain ⟨input, inner, hdoes, rfl⟩ := wholeOp?_eq_some h
  obtain ⟨b, hbody⟩ := hdoes.body
  rcases Op.mem_mentions_onAll hdoes.array hn with hcheck | hasked | hsize | rfl
  · exact mem_mentions.2 (Or.inr (Or.inl (Or.inl hcheck)))
  · rw [mem_mentions, hbody]
    exact Or.inl (by simp [Body.mentions, Exp.mentions, Op.mem_mentions_of_asked hasked])
  · obtain ⟨a, ha, hsize⟩ := List.mem_map.1 hsize
    exact mem_mentions.2 (Or.inr (Or.inl (Or.inr (Or.inr (Or.inl ⟨a, ha, hsize⟩)))))
  · refine mem_mentions.2 (Or.inr (Or.inl (Or.inr (Or.inr (Or.inr (Or.inl ?_))))))
    exact ⟨input, hdoes.inputs ▸ List.mem_singleton_self _, Or.inl rfl⟩

/-- A reduced statement has its pattern still; it binds no more inside, and mentions no more. -/
theorem Stm.reduce_eq_ok {s s' : Stm} {st st' : Attempt} (h : s.reduce st = .ok s' st') :
    s'.pattern = s.pattern ∧ s'.exp.binders.Sublist s.exp.binders ∧
      (∀ m ∈ s'.mentions, m ∈ s.mentions) ∧ st'.supply = st.supply := by
  obtain ⟨pattern, exp⟩ := s
  cases exp with
  | kernel k =>
    rw [reduce_kernel] at h
    split at h
    · next op hop =>
      cases h
      refine ⟨rfl, List.nil_sublist _, fun m hm => ?_, rfl⟩
      rw [mentions, List.mem_append] at hm ⊢
      exact hm.imp_left fun hm => Kernel.mentions_wholeOp? hop hm
    · cases h
      exact ⟨rfl, .refl _, fun _ hm => hm, rfl⟩
    · cases h
  | _ =>
    cases h
    exact ⟨rfl, .refl _, fun _ hm => hm, rfl⟩

/-! ### Finishing a kernel -/

/-- A statement that is given fresh names keeps its pattern. Inside, it binds new names only, and it
mentions what it did before or new names. -/
theorem Stm.freshen_distinct {s s' : Stm} {supply supply' : Supply}
    (h : s.freshen supply = .ok s' supply') :
    s'.pattern = s.pattern ∧ Fresh supply.next supply'.next (Pattern.names s'.exp.binders) ∧
      (∀ m ∈ s'.mentions, m ∈ s.mentions ∨ (supply.next ≤ m.tag ∧ m.tag < supply'.next)) ∧
      supply.next ≤ supply'.next := by
  obtain ⟨e', walked, hexp, rfl, rfl⟩ := freshen_eq_ok h
  have hrenews := Exp.renews hexp
  refine ⟨rfl, hrenews.binds.fresh, fun m hm => ?_, hrenews.binds.le⟩
  rw [mentions, List.mem_append]
  rcases List.mem_append.1 hm with hm | hm
  · rcases hrenews.origin m hm with hold | hnew
    · exact Or.inl (Or.inl hold)
    · rcases hrenews.binds.mem_range_iff.1 hnew with hnew | hnone
      · exact Or.inr (hrenews.binds.fresh.tags m hnew)
      · cases hnone
  · exact Or.inl (Or.inr hm)

/-- The same holds of a statement that is finished, if fresh names are asked for. -/
theorem finish_distinct {settings : Settings} (hfreshen : settings.freshenKernels = true)
    {s s' : Stm} {st st' : Attempt} (h : finish settings s st = .ok s' st') :
    s'.pattern = s.pattern ∧
      Fresh st.supply.next st'.supply.next (Pattern.names s'.exp.binders) ∧
      (∀ m ∈ s'.mentions,
        m ∈ s.mentions ∨ (st.supply.next ≤ m.tag ∧ m.tag < st'.supply.next)) ∧
      st.supply.next ≤ st'.supply.next := by
  rw [finish_eq, if_pos hfreshen] at h
  obtain ⟨s₁, st₁, hlift, h⟩ := bind_eq_ok_iff.1 h
  obtain ⟨supply, hstm, rfl⟩ := AttemptM.liftM_eq_ok_iff.1 hlift
  -- Names are fresh before the kernel is reduced, and reducing it only loses some.
  obtain ⟨hpattern, hfresh, hmentions, hle⟩ := Stm.freshen_distinct hstm
  split at h
  · obtain ⟨hpattern', hsublist, hmentions', hsupply⟩ := Stm.reduce_eq_ok h
    rw [hsupply]
    refine ⟨hpattern'.trans hpattern, ⟨hfresh.nodup.sublist (hsublist.map _), fun m hm => ?_⟩,
      fun m hm => hmentions m (hmentions' m hm), hle⟩
    exact hfresh.tags m ((hsublist.map _).subset hm)
  · obtain ⟨rfl, rfl⟩ := pure_eq_ok_iff.1 h
    exact ⟨hpattern, hfresh, hmentions, hle⟩

/-! ### All steps together -/

section Steps

variable {settings : Settings} {nest : KernelNest} {body : Body} {flat : FlatKernel} {kernel : Stm}
  {supply : Supply} {st st' : Attempt}

/-- A finished kernel and the statements in front of it bind the arrays of the outermost level and
new names. Whatever they bind inside is new. -/
theorem kernel_binders (hflat : nest.flatten body st.supply = .ok flat supply)
    (hfreshen : settings.freshenKernels = true)
    (hfinish : finish settings flat.stm { st with supply } = .ok kernel st') :
    st.supply.next ≤ st'.supply.next ∧
      (∃ new, Fresh st.supply.next st'.supply.next new ∧
        (Pattern.names ((flat.prelude ++ [kernel]).flatMap Stm.binders)).Perm
          (Pattern.names nest.outermost.pattern ++ new)) ∧
      ∀ s ∈ flat.prelude ++ [kernel], ∀ m ∈ Pattern.names s.exp.binders,
        st.supply.next ≤ m.tag ∧ m.tag < st'.supply.next := by
  obtain ⟨hpattern, hprelude, hnone, hle⟩ := KernelNest.flatten_distinct hflat
  obtain ⟨hpattern', hfresh, -, hle'⟩ := finish_distinct hfreshen hfinish
  dsimp only at hfresh hle'
  -- New are the products in front, and then whatever the kernel binds inside.
  refine ⟨Nat.le_trans hle hle', ⟨_, hprelude.fresh.append hfresh hle hle',
    List.perm_iff_count.2 fun m => ?_⟩, ?_⟩
  · simp only [List.flatMap_append, List.flatMap_singleton, Pattern.names_append, Stm.binders,
      hpattern', hpattern, List.count_append]
    omega
  · intro s hs m hm
    rcases List.mem_append.1 hs with hs | hs
    · rw [hnone s hs] at hm
      cases hm
    · rw [List.mem_singleton.1 hs] at hm
      have := hfresh.tags m hm
      omega

/-- They mention what occurs in the levels, what the body mentions, and new names. -/
theorem kernel_mentions (hflat : nest.flatten body st.supply = .ok flat supply)
    (hfreshen : settings.freshenKernels = true)
    (hfinish : finish settings flat.stm { st with supply } = .ok kernel st')
    (hlevels : ∀ l ∈ nest.toList, ∀ m ∈ l.occurring, P m) (hbody : ∀ m ∈ body.mentions, P m)
    (hnew : ∀ m : Name, st.supply.next ≤ m.tag → m.tag < st'.supply.next → P m) :
    ∀ s ∈ flat.prelude ++ [kernel], ∀ m ∈ s.mentions, P m := by
  obtain ⟨-, -, -, hle⟩ := KernelNest.flatten_distinct hflat
  obtain ⟨-, -, hmentions, hle'⟩ := finish_distinct hfreshen hfinish
  dsimp only at hmentions hle'
  have hflatten := KernelNest.flatten_mentions hflat hlevels hbody
    fun m hm hm' => hnew m hm (by omega)
  intro s hs m hm
  rcases List.mem_append.1 hs with hs | hs
  · exact hflatten s (List.mem_append_left _ hs) m hm
  · rw [List.mem_singleton.1 hs] at hm
    rcases hmentions m hm with hold | htag
    · exact hflatten _ (List.mem_append_right _ (List.mem_singleton_self _)) m hold
    · exact hnew m (by omega) htag.2

end Steps

end MapNest
