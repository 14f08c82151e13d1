import Mathlib.Data.List.Perm.Subperm
import MapNest.Proofs.Nest.Visible

/-!
# `MapNest.Proofs.Nest.Distinct`: the levels of a kernel nest bind no name twice

A nest in which every name is bound once is made into a kernel nest and into targets left behind.
Two things could go wrong: an array could be taken into the kernel and be left behind as well, and a
value could be handed in at two levels, or at a level where its name is a parameter already.

The first is ruled out by counting. The arrays of the outermost level and those left behind are
arrays that were there before, each at most as often, and new ones (`Arranges.subperm_arrays`). For
the second, what is handed in at a level is bound by the body of its map, or it is an array left
behind by the map just inside. Such an array may well be bound in that body, but nowhere else
(`Apart.bodies`); so the levels bind distinct names (`Arranges.nodup_levels`), by induction with the
outermost level against those inside it.
-/

set_option autoImplicit false

namespace MapNest

/-- The arrays of all targets, the outermost first. -/
def Targets.names (ts : Targets) : List Name :=
  ts.toList.flatMap fun t => Pattern.names (Target.pattern t)

/-- Some maps around one another bind no name twice, but that the body around a map may bind the
arrays that the map produces. -/
structure Apart (levels : List (Enclosing × Target)) (next : Nat) : Prop where
  /-- No two of the indices, parameters and names of the maps' bodies agree. -/
  names : (levels.flatMap (·.1.names)).Nodup
  /-- No two maps produce one array, and no map produces an array twice. -/
  arrays : (levels.flatMap fun x => Pattern.names (Target.pattern x.2)).Nodup
  /-- An array is bound at most by the map just around the one that produces it. -/
  bodies : ∀ (i j : Nat) (x y : Enclosing × Target), levels[i]? = some x → levels[j]? = some y →
    ∀ n ∈ x.1.names, n ∈ Pattern.names (Target.pattern y.2) → j = i + 1
  /-- What the maps bind has an earlier tag. -/
  tags : ∀ n ∈ declared levels, n.tag < next

namespace Apart

variable {levels within : List (Enclosing × Target)} {x y : Enclosing × Target} {next : Nat}
  {n : Name}

/-- Maps that bind no name twice stay so without the outermost one. -/
theorem tail (h : Apart (x :: within) next) : Apart within next where
  names := by
    have hnames := h.names
    rw [List.flatMap_cons] at hnames
    exact (List.nodup_append.1 hnames).2.1
  arrays := by
    have harrays := h.arrays
    rw [List.flatMap_cons] at harrays
    exact (List.nodup_append.1 harrays).2.1
  bodies i j y z hy hz n hn hn' := by
    have := h.bodies (i + 1) (j + 1) y z hy hz n hn hn'
    omega
  tags n hn := h.tags n (mem_declared_cons_of_mem hn)

/-- What a map or its body binds is older than the names that are drawn now. -/
theorem tag_of_mem_names (h : Apart levels next) (hx : x ∈ levels) (hn : n ∈ x.1.names) :
    n.tag < next :=
  h.tags n (List.mem_flatMap.2 ⟨x, hx, List.mem_append_right _ hn⟩)

/-- An array that a map produces is older than the names that are drawn now. -/
theorem tag_of_mem_arrays (h : Apart levels next) (hx : x ∈ levels)
    (hn : n ∈ Pattern.names (Target.pattern x.2)) : n.tag < next :=
  h.tags n (List.mem_flatMap.2 ⟨x, hx, List.mem_append_left _ hn⟩)

/-- What the outermost map produces is bound by no map. -/
theorem not_mem_names_of_mem_produced (h : Apart levels next) (hn : n ∈ produced levels) :
    ∀ x ∈ levels, n ∉ x.1.names := by
  cases levels with
  | nil => cases hn
  | cons y within =>
    intro x hx hname
    obtain ⟨i, hi⟩ := List.mem_iff_getElem?.1 hx
    have := h.bodies i 0 x y hi rfl n hname hn
    omega

/-- What a map binds is not produced by the maps further inside than the next one. -/
theorem not_mem_arrays_of_mem_names (h : Apart (x :: within) next) (hn : n ∈ x.1.names) :
    ∀ y ∈ within.tail, n ∉ Pattern.names (Target.pattern y.2) := by
  intro y hy harray
  obtain ⟨j, hj⟩ := List.mem_iff_getElem?.1 hy
  rw [List.getElem?_tail] at hj
  have := h.bodies 0 (j + 2) x y rfl hj n hn harray
  omega

end Apart

/-! ### Arrays -/

variable {scope : Scope} {s : Selection} {bound : NameSet} {levels : List (Enclosing × Target)}
  {lo hi : Nat} {built : Built} {n : Name}

/-- The arrays of the outermost level and those left behind were there before, or they are new. -/
theorem Arranges.subperm_arrays (h : Arranges scope s bound levels lo hi built) :
    ∃ new, Fresh lo hi new ∧
      (Pattern.names built.nest.outermost.pattern ++ built.targets.names).Subperm
        ((levels.flatMap fun x => Pattern.names (Target.pattern x.2)) ++ new) := by
  induction h with
  | @innermost position e t captures lo hi hrestore hcloses hadded htyped =>
    -- Arrays set aside are left behind, and the level has the others.
    refine ⟨_, hadded.fresh, List.subperm_ext_iff.2 fun m _ => ?_⟩
    have hcount := (hrestore.map fun o => o.binder.name).count_eq m
    have harrays : Targets.names (.single (s.restore (captures.flatMap (·.added))))
        = Pattern.names (Target.pattern (s.restore (captures.flatMap (·.added)))) :=
      List.flatMap_singleton ..
    rw [harrays]
    show (Pattern.names (Target.pattern s.targets.inner) ++ _).count m ≤ _
    simp only [Selection.restore, Target.pattern, Pattern.names, List.map_append, List.map_map,
      Function.comp_def, List.count_append, List.append_nil, List.flatMap_cons, List.flatMap_nil]
      at hcount ⊢
    omega
  | @enclose within position e t built d new captures lo mid top hi hwithin hdivides hnew hdrawn
      hle hcloses hadded _ ih =>
    obtain ⟨old, hfresh, hinner⟩ := ih
    have hlo := hwithin.builds.le
    have hhi := hcloses.le
    -- The names drawn for the levels inside, for new outputs, and for captures.
    refine ⟨old ++ _ ++ _, (hfresh.append hdrawn.fresh hlo hle).append hadded.fresh (by omega) hhi,
      List.subperm_ext_iff.2 fun m _ => ?_⟩
    have hdivided := (hdivides.perm.map (·.name)).count_eq m
    have hcount := hinner.count_le m
    show (Pattern.names ((d.taken ++ new).map (·.binder)) ++
      (Pattern.names (Target.pattern (d.kept ++ captures.flatMap (·.added))) ++
        built.targets.names)).count m ≤ _
    simp only [Target.pattern, Pattern.names, List.map_append, List.map_map, Function.comp_def,
      List.count_append, List.flatMap_cons] at hdivided hcount ⊢
    omega

/-- The arrays of the outermost level and those left behind are distinct. -/
theorem Arranges.nodup_arrays (h : Arranges scope s bound levels lo hi built)
    (ha : Apart levels lo) :
    (Pattern.names built.nest.outermost.pattern ++ built.targets.names).Nodup := by
  obtain ⟨new, hfresh, kept, hperm, hsublist⟩ := h.subperm_arrays
  have htags : ∀ m ∈ levels.flatMap fun x => Pattern.names (Target.pattern x.2), m.tag < lo := by
    intro m hm
    obtain ⟨x, hx, hm⟩ := List.mem_flatMap.1 hm
    exact ha.tag_of_mem_arrays hx hm
  exact hperm.nodup_iff.1 ((hfresh.nodup_append ha.arrays htags).sublist hsublist)

/-- The arrays of the outermost level are arrays that its map produced, or they are new. -/
theorem Builds.pattern_origin (h : Builds s bound levels lo hi built)
    (hn : n ∈ Pattern.names built.nest.outermost.pattern) : n ∈ produced levels ∨ lo ≤ n.tag := by
  obtain ⟨b, hb, rfl⟩ := Pattern.mem_names.1 hn
  cases h with
  | @innermost t f captures _ _ _ _ _ htargets _ hpattern _ =>
    have hb : b ∈ f.pattern := hb
    rw [hpattern] at hb
    obtain ⟨o, ho, rfl⟩ := List.mem_map.1 hb
    exact Or.inl (Target.mem_names_pattern.2 ⟨o, htargets o ho, rfl⟩)
  | enclose _ _ _ _ hpattern _ _ =>
    rcases hpattern b hb with ⟨o, ho, rfl⟩ | ⟨-, htag, -⟩
    · exact Or.inl (Target.mem_names_pattern.2 ⟨o, ho, rfl⟩)
    · exact Or.inr htag

/-- An array left behind further inside was produced further inside, or it is new. -/
theorem Builds.inner_origin (h : Builds s bound levels lo hi built) {t : Target}
    (ht : t ∈ built.targets.toList.tail) (hn : n ∈ Pattern.names (Target.pattern t)) :
    (∃ x ∈ levels.tail, n ∈ Pattern.names (Target.pattern x.2)) ∨ lo ≤ n.tag := by
  have hall := h.outputs_origin
  generalize built.targets.toList = ts at hall ht
  cases hall with
  | nil => cases ht
  | cons _ hinner =>
    obtain ⟨x, hx, horigin⟩ := exists_of_mem_right hinner ht
    obtain ⟨o, ho, rfl⟩ := Target.mem_names_pattern.1 hn
    rcases horigin o ho with hold | hnew
    · exact Or.inl ⟨x, hx, Target.mem_names_pattern.2 ⟨o, hold, rfl⟩⟩
    · exact Or.inr hnew.1

/-- The arrays that are produced are those of one of the maps. -/
theorem exists_of_mem_produced (hn : n ∈ produced levels) :
    ∃ x ∈ levels, n ∈ Pattern.names (Target.pattern x.2) := by
  cases levels with
  | nil => cases hn
  | cons x within => exact ⟨x, List.mem_cons_self .., hn⟩

/-! ### Levels -/

/-- A name that is hidden around some maps with other targets is bound by one of them, or it is an
array of a target further inside. -/
theorem mem_hidden_retarget {targets : Targets} (hn : n ∈ hidden (retarget levels targets)) :
    (∃ x ∈ levels, n ∈ x.1.names) ∨
      ∃ t ∈ targets.toList.tail, n ∈ Pattern.names (Target.pattern t) := by
  obtain ⟨rest, hrest⟩ := targets.exists_toList_eq_cons
  cases levels with
  | nil => cases hn
  | cons x within =>
    rw [retarget, hrest, List.map_cons, List.zip_cons_cons, hidden, Enclosing.inside,
      List.mem_append] at hn
    rw [hrest]
    rcases hn with hn | hn
    · exact Or.inl ⟨x, List.mem_cons_self .., hn⟩
    · obtain ⟨y, hy, hn⟩ := List.mem_flatMap.1 hn
      obtain ⟨hmap, htarget⟩ := List.of_mem_zip hy
      rcases List.mem_append.1 hn with hn | hn
      · exact Or.inr ⟨y.2, htarget, hn⟩
      · obtain ⟨z, hz, heq⟩ := List.mem_map.1 hmap
        exact Or.inl ⟨z, List.mem_cons_of_mem _ hz, heq ▸ hn⟩

/-- A level binds names that a map binds, and arrays left behind further inside. -/
theorem Builds.bound_origin (h : Builds s bound levels lo hi built)
    (hn : n ∈ built.nest.toList.flatMap Level.names) :
    (∃ x ∈ levels, n ∈ x.1.names) ∨
      ∃ t ∈ built.targets.toList.tail, n ∈ Pattern.names (Target.pattern t) := by
  obtain ⟨l, hl, hn⟩ := List.mem_flatMap.1 hn
  exact mem_hidden_retarget (h.mem_hidden_of_mem_bound hl (Level.mem_names.1 hn))

/-- What a level put around others binds, these do not bind. Its own names are those of its map, and
arrays that the map just inside leaves behind. -/
theorem Arranges.disjoint_levels {within : List (Enclosing × Target)} {e : Enclosing} {t : Target}
    (h : Arranges scope s bound within lo hi built) (ha : Apart ((e, t) :: within) lo)
    (hn : n ∈ e.names ∨ n ∈ Pattern.names (Target.pattern built.targets.outermost)) :
    n ∉ built.nest.toList.flatMap Level.names := by
  intro hinner
  have hnames := ha.names
  rw [List.flatMap_cons, List.nodup_append] at hnames
  rcases hn with hn | hn
  · have htag := ha.tag_of_mem_names (List.mem_cons_self ..) hn
    rcases h.builds.bound_origin hinner with ⟨x, hx, hn'⟩ | ⟨t', ht', hn'⟩
    · exact hnames.2.2 n hn n (List.mem_flatMap.2 ⟨x, hx, hn'⟩) rfl
    · rcases h.builds.inner_origin ht' hn' with ⟨x, hx, hn'⟩ | hnew
      · exact ha.not_mem_arrays_of_mem_names hn x hx hn'
      · omega
  · rcases h.builds.bound_origin hinner with ⟨x, hx, hn'⟩ | ⟨t', ht', hn'⟩
    · -- The map just inside produces the array, so no map from there on binds it.
      have htag := ha.tail.tag_of_mem_names hx hn'
      have hproduced : n ∈ produced (retarget within built.targets) :=
        h.builds.mem_produced.2 (Target.mem_names_pattern.1 hn)
      rcases h.builds.mem_produced_or_new hproduced with hold | hnew
      · exact ha.tail.not_mem_names_of_mem_produced hold x hx hn'
      · omega
    · -- Two of the targets left behind would have the array.
      have harrays := (List.nodup_append.1 (h.nodup_arrays ha.tail)).2.1
      obtain ⟨rest, hrest⟩ := built.targets.exists_toList_eq_cons
      rw [hrest] at ht'
      rw [Targets.names, hrest, List.flatMap_cons, List.nodup_append] at harrays
      exact harrays.2.2 n hn n (List.mem_flatMap.2 ⟨t', ht', hn'⟩) rfl

/-- If all names are distinct, what a map binds is bound by no level further inside. -/
theorem Arranges.not_mem_bound_inside (h : Arranges scope s bound levels lo hi built) :
    Apart levels lo → ∀ {k : Nat} {e : Enclosing} {t : Target}, levels[k]? = some (e, t) →
      n ∈ e.names → ∀ l ∈ built.nest.toList.drop (k + 1), n ∉ l.bound := by
  induction h with
  | innermost =>
    intro ha k e t hk hn l hl
    rw [Stack.toList_single, List.drop_succ_cons, List.drop_nil] at hl
    cases hl
  | enclose hwithin _ _ _ _ _ _ _ ih =>
    intro ha k e t hk hn l hl
    rw [Stack.toList_pushOuter, Stack.toList_map, List.drop_succ_cons, ← List.map_drop] at hl
    obtain ⟨l', hl', rfl⟩ := List.mem_map.1 hl
    cases k with
    | zero =>
      cases hk
      rw [List.drop_zero] at hl'
      exact fun hbound => hwithin.disjoint_levels ha (Or.inl hn)
        (List.mem_flatMap.2 ⟨l', hl', Level.mem_names.2 hbound⟩)
    | succ k => exact ih ha.tail hk hn l' hl'

/-- No two levels bind one name. -/
theorem Arranges.nodup_levels (h : Arranges scope s bound levels lo hi built) :
    Apart levels lo → (built.nest.toList.flatMap Level.names).Nodup := by
  induction h with
  | @innermost position e t captures lo hi _ hcloses _ _ =>
    intro ha
    have hnames := ha.names
    rw [List.flatMap_singleton] at hnames
    show (List.flatMap Level.names [_]).Nodup
    rw [List.flatMap_singleton]
    exact Frame.nodup_closed hcloses.names (Enclosing.nodup_params hnames)
  | @enclose within position e t built d new captures lo mid top hi hwithin _ _ _ _ hcloses _ _
      ih =>
    intro ha
    have hnames := ha.names
    rw [List.flatMap_cons, List.nodup_append] at hnames
    have hlevels :
        (built.nest.map (Level.permute ((d.taken ++ new).map (·.position)))).toList.flatMap
          Level.names = built.nest.toList.flatMap Level.names := by
      rw [Stack.toList_map, List.flatMap_map]
      rfl
    rw [Stack.toList_pushOuter, List.flatMap_cons, hlevels, List.nodup_append]
    refine ⟨Frame.nodup_closed hcloses.names (Enclosing.nodup_params hnames.1), ih ha.tail, ?_⟩
    rintro n hn m hm rfl
    refine hwithin.disjoint_levels ha ?_ hm
    -- What the level binds is the map's, or it is captured.
    rcases (Frame.mem_bound_closed hcloses.names).1 (Level.mem_names.1 hn) with
      rfl | ⟨-, i, hi, rfl⟩ | hcaptured
    · exact Or.inl (Enclosing.mem_names.2 Enclosing.index_mem_bound)
    · exact Or.inl (Enclosing.mem_names.2 (Enclosing.param_mem_bound hi))
    · rcases (Frame.of_mem_captured hcaptured).1 with hlet | hbelow
      · exact Or.inl (Enclosing.mem_names.2 (Enclosing.mem_bound.2 (Or.inl hlet)))
      · exact Or.inr (NameSet.mem_ofList.1 hbelow)

/-- The arrays of the outermost level are bound by no level. -/
theorem Arranges.disjoint_pattern (h : Arranges scope s bound levels lo hi built)
    (ha : Apart levels lo) (hn : n ∈ Pattern.names built.nest.outermost.pattern) :
    n ∉ built.nest.toList.flatMap Level.names := by
  intro hbound
  rcases h.builds.bound_origin hbound with ⟨x, hx, hn'⟩ | ⟨t, ht, hn'⟩
  · have htag := ha.tag_of_mem_names hx hn'
    rcases h.builds.pattern_origin hn with hold | hnew
    · exact ha.not_mem_names_of_mem_produced hold x hx hn'
    · omega
  · -- The array would be left behind as well.
    have harrays := (List.nodup_append.1 (h.nodup_arrays ha)).2.2 n hn
    have htarget := List.mem_of_mem_tail ht
    exact harrays n (List.mem_flatMap.2 ⟨t, htarget, hn'⟩) rfl

end MapNest
