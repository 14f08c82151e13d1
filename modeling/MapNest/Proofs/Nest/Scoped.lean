import Mathlib.Data.List.Pairwise
import MapNest.Proofs.Nest.Visible

/-!
# `MapNest.Proofs.Nest.Scoped`: no level asks for what it cannot see

In a nest that is `Scoped` every map finds its width, its checks and its arrays outside, the arrays
it produces have its width as their outermost size, and the body around it is the one that binds
them. The check for irregular arrays looks at one level at a time. Still no level built from such a
nest asks for a name of the nest that the levels around it do not bind:

* `Builds.not_mem_hidden`: what the levels built so far demand of the nest is visible where they
  stand. This is the invariant;
* `Builds.not_mem_demand`: the whole nest demands nothing that is bound in the nest;
* `Builds.level_scoped`: each level built is `Level.Scoped`;
* `Builds.width_known`: if the kernel produces anything, its widths are known outside the nest.
-/

set_option autoImplicit false

namespace MapNest

/-- Besides being consistent, a nest is well scoped: what its maps mention and produce is bound
where it belongs. -/
structure Scoped (nesting : Nesting) (targets : Targets) (next : Nat) : Prop
    extends Consistent nesting targets next where
  /-- The width of a map is known outside it. -/
  widths : EachLevel (fun e _ within => ∀ n ∈ Operand.names [e.level.width], n ∉ e.inside within)
    (nesting.levels targets)
  /-- The checks of a map are bound outside it. -/
  checks : EachLevel (fun e _ within => ∀ n ∈ e.level.checks, n ∉ e.inside within)
    (nesting.levels targets)
  /-- The arrays that a map produces have a row for each iteration. -/
  shapes : EachLevel (fun e t _ => ∀ o ∈ t, o.binder.ty.outerDim? = some e.level.width)
    (nesting.levels targets)
  /-- If the nest binds the arrays that a map produces, the body around the map does. -/
  outputs : EachLevel (fun e _ within => ∀ n ∈ produced within, n ∈ nesting.bound → n ∈ e.letBound)
    (nesting.levels targets)

/-- A level of a kernel is well scoped: its types mention nothing that is bound in the nest, and
neither its arrays nor whatever else of the nest it mentions is bound by the level itself. -/
structure Level.Scoped (bound : NameSet) (l : Level) : Prop where
  regular : l.Regular bound
  arrays : ∀ r ∈ l.inputs, r.array ∉ l.bound
  mentions : ∀ n ∈ bound, l.Mentions n → n ∉ l.bound

/-- A level stays well scoped when its arrays change places. -/
theorem Level.Scoped.permute {bound : NameSet} {l : Level} (h : l.Scoped bound) {order : List Nat} :
    (l.permute order).Scoped bound where
  regular := by
    intro b hb
    apply h.regular b
    rcases List.mem_append.1 hb with hb | hb
    · exact List.mem_append_left _ hb
    · exact List.mem_append_right _ (Pattern.mem_of_mem_permute hb)
  arrays := h.arrays
  mentions := h.mentions

/-! ### The demand of some levels -/

/-- What remains to be asked outside some levels, the outermost first. -/
def Demand.aroundAll (d : Demand) (levels : List Level) : Demand :=
  levels.foldr (fun l d => d.around l) d

namespace Demand

variable {d : Demand} {l : Level} {levels : List Level} {n : Name}

/-- Outside some levels, the outermost one asks for what it mentions itself, and for what the levels
inside ask for unless it binds that. -/
theorem mem_aroundAll_cons :
    n ∈ (d.aroundAll (l :: levels)).free ↔
      n ∈ l.free ∨ (n ∈ (d.aroundAll levels).free ∧ n ∉ l.bound) :=
  mem_around_free

/-- The order of the arrays of the levels does not change what they ask for. -/
@[simp] theorem aroundAll_map_permute {order : List Nat} :
    d.aroundAll (levels.map (Level.permute order)) = d.aroundAll levels := by
  rw [aroundAll, List.foldr_map]
  rfl

/-- What is asked for is asked for outside the levels as well, unless one of them binds it. -/
theorem mem_aroundAll_or_bound (hn : n ∈ d.free) :
    n ∈ (d.aroundAll levels).free ∨ ∃ l ∈ levels, n ∈ l.bound := by
  induction levels with
  | nil => exact Or.inl hn
  | cons l levels ih =>
    rcases ih with h | ⟨l', hl', h⟩
    · by_cases hbound : n ∈ l.bound
      · exact Or.inr ⟨l, List.mem_cons_self .., hbound⟩
      · exact Or.inl (mem_aroundAll_cons.2 (Or.inr ⟨h, hbound⟩))
    · exact Or.inr ⟨l', List.mem_cons_of_mem _ hl', h⟩

end Demand

/-! ### One level -/

section Level

variable {s : Selection} {bound : NameSet} {f : Frame} {demand : Demand} {captures : List Capture}
  {nesting : Nesting} {targets : Targets} {outer within : List (Enclosing × Target)} {t : Target}
  {built : Built} {lo mid hi : Nat} {n : Name}

/-- The arrays of a level are not bound inside its map, if that holds of the map's arrays and of
those that hand in values. -/
theorem Frame.array_not_mem_inside
    (hmap : ∀ r ∈ f.enclosing.level.inputs, r.array ∉ f.enclosing.inside within)
    (hcaptures : ∀ c ∈ captures, c.input.array ∉ f.enclosing.inside within) :
    ∀ r ∈ (f.closed demand captures).inputs, r.array ∉ f.enclosing.inside within := by
  intro r hr
  obtain ⟨r', ⟨hown, -⟩ | ⟨c, hc, rfl⟩, rfl⟩ := Frame.mem_inputs_closed.1 hr
  · rw [RowInput.array_demote]
    exact hmap r' hown
  · rw [RowInput.array_demote]
    exact hcaptures c hc

/-- What a level mentions of the nest is not bound inside its map, if that holds of the map's width,
checks and arrays and of the arrays that hand in values. -/
theorem Frame.Closes.not_mem_inside (h : f.Closes bound demand captures lo hi)
    (hmap : ∀ m, f.enclosing.level.width = .var m ∨ m ∈ f.enclosing.level.checks →
      m ∉ f.enclosing.inside within)
    (harrays : ∀ r ∈ (f.closed demand captures).inputs, r.array ∉ f.enclosing.inside within)
    (hn : n ∈ bound) (hm : (f.closed demand captures).Mentions n) :
    n ∉ f.enclosing.inside within := by
  rcases hm with hwidth | hchecks | ⟨r, hr, hdims⟩ | ⟨r, hr, rfl⟩
  · exact hmap n (Or.inl hwidth)
  · exact hmap n (Or.inr hchecks)
  · -- A size that the nest binds would have been found by the check.
    have hparam : r.param ∈ (f.closed demand captures).params := List.mem_map_of_mem hr
    exact absurd hn (h.regular r.param (List.mem_append_left _ hparam) n hdims)
  · exact harrays r hr

/-- A level that produces an array with a row for each iteration has a width that is known outside
the nest, because it is regular. -/
theorem Frame.Closes.width_known (h : f.Closes bound demand captures lo hi)
    (hne : f.pattern ≠ [])
    (hrows : ∀ b ∈ f.pattern, b.ty.outerDim? = some f.enclosing.level.width) :
    (f.closed demand captures).width.Known bound := by
  rw [Operand.known_iff]
  intro n hn
  -- Any array of the level will do: the width is its outermost size, which the check has seen.
  obtain ⟨b, hb⟩ := List.exists_mem_of_ne_nil _ hne
  have hdim : .var n ∈ b.ty.dims := by
    rw [← hn]
    exact List.mem_of_head? (hrows b hb)
  exact h.regular b (List.mem_append_right _ hb) n hdim

namespace Scoped

/-- The width and the checks of a map are not bound inside it. -/
theorem not_mem_inside {e : Enclosing} (hs : Scoped nesting targets lo)
    (hl : nesting.levels targets = outer ++ (e, t) :: within)
    (hn : e.level.width = .var n ∨ n ∈ e.level.checks) : n ∉ e.inside within := by
  rcases hn with hn | hn
  · exact hs.widths.of_eq_append hl n (by simp [hn])
  · exact hs.checks.of_eq_append hl n hn

/-- The width and the checks of a map are not bound inside it when the targets further inside have
changed, either. -/
theorem not_mem_inside_retarget {e : Enclosing} (hs : Scoped nesting targets lo)
    (hl : nesting.levels targets = outer ++ (e, t) :: within)
    (hwithin : Builds s bound within lo hi built)
    (hn : e.level.width = .var n ∨ n ∈ e.level.checks) :
    n ∉ e.inside (retarget within built.targets) := by
  apply hs.toConsistent.not_mem_inside_retarget hl hwithin ?_ (hs.not_mem_inside hl hn)
  rcases hn with hn | hn
  · exact Or.inl hn
  · exact Or.inr (Or.inl hn)

/-- The arrays of the innermost level are not bound inside its map. -/
theorem innermost_array_not_mem_inside (hs : Scoped nesting targets lo)
    (hl : nesting.levels targets = outer ++ [(f.enclosing, t)])
    (hcarrier : ∀ n b, f.carrier? n = some b → ⟨b, n⟩ ∈ s.passed)
    (hpassed : ∀ p ∈ s.passed, p.output ∈ t)
    (hcloses : f.Closes bound demand captures lo hi) :
    ∀ r ∈ (f.closed demand captures).inputs, r.array ∉ f.enclosing.inside [] := by
  have hsupplied := hs.toConsistent.innermost_supplied hl hcarrier hpassed hcloses
  exact Frame.array_not_mem_inside (fun r hr => hs.array_not_mem_inside hl hr)
    (fun c hc => (hsupplied c hc).1)

/-- The arrays of a level put around others are not bound inside its map. -/
theorem enclose_array_not_mem_inside (hs : Scoped nesting targets lo)
    (hl : nesting.levels targets = outer ++ (f.enclosing, t) :: within)
    (hwithin : Builds s bound within lo mid built) (hcarrier : ∀ n, f.carrier? n = none)
    (hcloses : f.Closes bound demand captures mid hi) :
    ∀ r ∈ (f.closed demand captures).inputs,
      r.array ∉ f.enclosing.inside (retarget within built.targets) := by
  have hsupplied := hs.toConsistent.enclose_supplied hl hwithin hcarrier hcloses
  exact Frame.array_not_mem_inside
    (fun r hr => hs.array_not_mem_inside_retarget hl hwithin hr)
    (fun c hc => (hsupplied c hc).1)

end Scoped

end Level

/-! ### The levels of a nest -/

namespace Builds

variable {s : Selection} {bound : NameSet} {nesting : Nesting} {targets : Targets}
  {levels : List (Enclosing × Target)} {lo hi : Nat} {built : Built} {n : Name}

/-- What was recorded while the levels were built is what they ask for. -/
theorem demand_eq (h : Builds s bound levels lo hi built) :
    built.demand =
      Demand.aroundAll ⟨s.free ∩ bound, s.consumed ∩ bound⟩ built.nest.toList := by
  induction h with
  | innermost => rfl
  | enclose _ _ _ _ _ _ _ ih =>
    rw [Stack.toList_pushOuter, Stack.toList_map, Demand.aroundAll, List.foldr_cons]
    show _ = Demand.around (Demand.aroundAll _ _) _
    rw [Demand.aroundAll_map_permute, ← ih]

/-- The levels built have the indices and the widths of the maps. -/
theorem forall₂ (h : Builds s bound levels lo hi built) :
    List.Forall₂ (fun x l => l.index = x.1.level.index ∧ l.width = x.1.level.width) levels
      built.nest.toList := by
  induction h with
  | innermost => exact .cons ⟨rfl, rfl⟩ .nil
  | enclose _ _ _ _ _ _ _ ih =>
    rw [Stack.toList_pushOuter, Stack.toList_map]
    refine .cons ⟨rfl, rfl⟩ ?_
    rw [List.forall₂_map_right_iff]
    exact ih

/-- The maps have known widths just if the levels do. -/
theorem width_known_iff (h : Builds s bound levels lo hi built) {names : NameSet} :
    (∀ l ∈ built.nest.toList, l.width.Known names) ↔
      ∀ x ∈ levels, x.1.level.width.Known names := by
  constructor
  · intro hall x hx
    obtain ⟨l, hl, -, hwidth⟩ := exists_of_mem_left h.forall₂ hx
    exact hwidth ▸ hall l hl
  · intro hall l hl
    obtain ⟨x, hx, -, hwidth⟩ := exists_of_mem_right h.forall₂ hl
    exact hwidth ▸ hall x hx

/-- The widths of the nest are known just if those of the maps are. -/
theorem widths_known_iff (h : Builds s bound (nesting.levels targets) lo hi built)
    (hdepth : nesting.depth = targets.depth) {names : NameSet} :
    (∀ l ∈ built.nest.toList, l.width.Known names) ↔
      ∀ e ∈ nesting.toList, e.level.width.Known names := by
  rw [h.width_known_iff]
  constructor
  · intro hall e he
    obtain ⟨x, hx, rfl⟩ := (Nesting.mem_toList_iff hdepth).1 he
    exact hall x hx
  · intro hall x hx
    exact hall x.1 ((Nesting.mem_toList_iff hdepth).2 ⟨x, hx, rfl⟩)

/-- What a level of the nest binds is older than the names that are drawn next. -/
theorem tag_of_mem_bound (hc : Consistent nesting targets lo)
    (h : Builds s bound (nesting.levels targets) lo hi built) {l : Level}
    (hl : l ∈ built.nest.toList) (hn : n ∈ l.bound) : n.tag < hi := by
  have hle := h.le
  have hdeclared : n ∈ declared (retarget (nesting.levels targets) built.targets) := by
    rw [declared_eq]
    exact List.mem_append_right _ (h.mem_hidden_of_mem_bound hl hn)
  rcases h.mem_declared hdeclared with hn | hn
  · have := hc.tags_declared n hn
    omega
  · exact hn.2

/-- What the levels built demand of the nest is visible where they stand. -/
theorem not_mem_hidden (h : Builds s bound levels lo hi built) :
    Scoped nesting targets lo → ∀ outer, nesting.levels targets = outer ++ levels →
    ∀ n ∈ bound, n ∈ built.demand.free → n ∉ hidden (retarget levels built.targets) := by
  induction h with
  | @innermost t f captures lo hi hbelow hcarrier hpassed _ _ _ hcloses =>
    intro hs outer hl n hn hdemand
    rcases Demand.mem_around_free.1 hdemand with hfree | ⟨hread, hbound⟩
    · exact hcloses.not_mem_inside (fun m hm => hs.not_mem_inside hl hm)
        (hs.innermost_array_not_mem_inside hl hcarrier hpassed hcloses) hn
        (Level.mem_free_iff_mentions.1 hfree).1
    · -- What the statements read and the level does not bind, its map does not bind either.
      show n ∉ f.enclosing.inside []
      rw [Enclosing.mem_inside, not_or]
      refine ⟨fun hmap => ?_, List.not_mem_nil⟩
      exact hbound (Frame.mem_bound_closed_of_demand hcloses.names hread (Or.inl hmap))
  | @enclose within t built f captures order lo mid hi hwithin hbelow hcarrier _ _ _ hcloses ih =>
    intro hs outer hl n hn hdemand
    rw [retarget_pushOuter]
    rcases Demand.mem_around_free.1 hdemand with hfree | ⟨hread, hbound⟩
    · exact hcloses.not_mem_inside (fun m hm => hs.not_mem_inside_retarget hl hwithin hm)
        (hs.enclose_array_not_mem_inside hl hwithin hcarrier hcloses) hn
        (Level.mem_free_iff_mentions.1 hfree).1
    · -- The levels inside demand it, and this level does not bind it: its map does not either, for
      -- what a map's body binds, or the maps inside produce, would have been captured.
      have hinner := ih hs (outer ++ [(f.enclosing, t)]) (hl.trans (List.append_cons ..)) n hn
        hread
      show n ∉ f.enclosing.inside (retarget within built.targets)
      rw [Enclosing.mem_inside, declared_eq, List.mem_append, not_or, not_or]
      refine ⟨fun hmap => ?_, fun hproduced => ?_, hinner⟩
      · exact hbound (Frame.mem_bound_closed_of_demand hcloses.names hread (Or.inl hmap))
      · have hbelow := (hbelow n).2 (hwithin.mem_produced.1 hproduced)
        exact hbound (Frame.mem_bound_closed_of_demand hcloses.names hread (Or.inr hbelow))

/-- Each level built is well scoped. -/
theorem level_scoped (h : Builds s bound levels lo hi built) :
    Scoped nesting targets lo → ∀ outer, nesting.levels targets = outer ++ levels →
    ∀ l ∈ built.nest.toList, l.Scoped bound := by
  induction h with
  | @innermost t f captures lo hi hbelow hcarrier hpassed _ _ _ hcloses =>
    intro hs outer hl l hmem
    rw [List.mem_singleton.1 hmem]
    have hinside : ∀ n ∈ (f.closed _ captures).bound, n ∈ f.enclosing.inside [] := fun n hn =>
      hcloses.mem_inside_of_mem_bound (fun m hm => absurd hm (hbelow m)) hn
    have harrays := hs.innermost_array_not_mem_inside hl hcarrier hpassed hcloses
    refine ⟨hcloses.regular, fun r hr hbound => harrays r hr (hinside _ hbound), ?_⟩
    intro n hn hm hbound
    exact hcloses.not_mem_inside (fun m hm => hs.not_mem_inside hl hm) harrays hn hm
      (hinside n hbound)
  | @enclose within t built f captures order lo mid hi hwithin hbelow hcarrier _ _ _ hcloses ih =>
    intro hs outer hl l hmem
    rw [Stack.toList_pushOuter, Stack.toList_map] at hmem
    rcases List.mem_cons.1 hmem with rfl | hmem
    · have hinside := fun n (hn : n ∈ (f.closed _ captures).bound) =>
        hcloses.mem_inside_of_mem_bound
          (fun m hm => hwithin.mem_produced.2 ((hbelow m).1 hm)) hn
      have harrays := hs.enclose_array_not_mem_inside hl hwithin hcarrier hcloses
      refine ⟨hcloses.regular, fun r hr hbound => harrays r hr (hinside _ hbound), ?_⟩
      intro n hn hm hbound
      exact hcloses.not_mem_inside (fun m hm => hs.not_mem_inside_retarget hl hwithin hm) harrays
        hn hm (hinside n hbound)
    · obtain ⟨l', hl', rfl⟩ := List.mem_map.1 hmem
      exact (ih hs (outer ++ [(f.enclosing, t)]) (hl.trans (List.append_cons ..)) l' hl').permute

/-- The whole nest demands nothing that is bound in the nest. -/
theorem not_mem_demand (hs : Scoped nesting targets lo)
    (h : Builds s bound (nesting.levels targets) lo hi built) (hnest : n ∈ nesting.bound)
    (hn : n ∈ bound) : n ∉ built.demand.free := by
  have hdepth : nesting.depth = built.targets.depth := by
    rw [h.depth_targets, Nesting.length_levels hs.depth_eq]
  intro hdemand
  apply h.not_mem_hidden hs [] rfl n hn hdemand
  rw [Nesting.retarget_levels hs.depth_eq hdepth]
  exact Nesting.mem_hidden_levels hdepth hnest

/-- If the kernel has an array to compute, it has one at each level, and the widths of the levels
are known outside the nest. -/
theorem width_known (h : Builds s bound levels lo hi built) (hinner : s.targets.inner ≠ []) :
    Scoped nesting targets lo → ∀ outer, nesting.levels targets = outer ++ levels →
    built.nest.outermost.pattern ≠ [] ∧
      ∀ l ∈ built.nest.toList, l.width.Known bound := by
  induction h with
  | @innermost t f captures lo hi _ _ _ htargets _ hpattern hcloses =>
    intro hs outer hl
    have hne : f.pattern ≠ [] := by
      rw [hpattern]
      exact mt List.map_eq_nil_iff.1 hinner
    have hrows : ∀ b ∈ f.pattern, b.ty.outerDim? = some f.enclosing.level.width := by
      intro b hb
      rw [hpattern] at hb
      obtain ⟨o, ho, rfl⟩ := List.mem_map.1 hb
      exact hs.shapes.of_eq_append hl o (htargets o ho)
    refine ⟨hne, fun l hmem => ?_⟩
    rw [List.mem_singleton.1 hmem]
    exact hcloses.width_known hne hrows
  | @enclose within t built f captures order lo mid hi hwithin _ _ _ hpattern hnonempty hcloses
      ih =>
    intro hs outer hl
    obtain ⟨hne', hwidths⟩ := ih hs (outer ++ [(f.enclosing, t)])
      (hl.trans (List.append_cons ..))
    -- The level has an array as soon as the level inside has one, new or taken from the target.
    have hne : f.pattern ≠ [] := mt hnonempty hne'
    have hrows : ∀ b ∈ f.pattern, b.ty.outerDim? = some f.enclosing.level.width := by
      intro b hb
      rcases hpattern b hb with ⟨o, ho, rfl⟩ | ⟨⟨ty, hty⟩, -⟩
      · exact hs.shapes.of_eq_append hl o ho
      · rw [Ty.outerDim?, hty, Ty.dims_arrayOf, List.head?_cons]
    refine ⟨hne, fun l hmem => ?_⟩
    rw [Stack.toList_pushOuter, Stack.toList_map] at hmem
    rcases List.mem_cons.1 hmem with rfl | hmem
    · exact hcloses.width_known hne hrows
    · obtain ⟨l', hl', rfl⟩ := List.mem_map.1 hmem
      exact hwidths l' hl'

end Builds

/-! ### Indices -/

/-- No body binds the index of a map. -/
theorem Consistent.index_not_mem_letBound {nesting : Nesting} {targets : Targets} {next : Nat}
    (hc : Consistent nesting targets next) {e e' : Enclosing} (he : e ∈ nesting.toList)
    (he' : e' ∈ nesting.toList) : e.level.index ∉ e'.letBound := by
  obtain ⟨hnodup, hdisjoint⟩ := List.nodup_flatMap.1 hc.nodup
  intro hmem
  have hlet : e.level.index ∈ Pattern.names e'.level.params ++ e'.letBound.toList :=
    List.mem_append_right _ hmem
  -- Within one map the names are distinct, and those of two maps are disjoint.
  by_cases heq : e = e'
  · subst heq
    exact (List.nodup_cons.1 (hnodup e he)).1 hlet
  · have hsymm : Std.Symm fun a b : Enclosing => List.Disjoint a.names b.names :=
      ⟨fun _ _ h => List.disjoint_symm h⟩
    exact hdisjoint.forall he he' heq (List.mem_cons_self ..) (List.mem_cons_of_mem _ hlet)

namespace Scoped

variable {nesting : Nesting} {targets : Targets} {next : Nat}
  {outer within : List (Enclosing × Target)} {e e' : Enclosing} {t : Target}

/-- No array that a map produces has the name of an index. -/
theorem output_ne_index (hs : Scoped nesting targets next)
    (hl : nesting.levels targets = outer ++ (e, t) :: within) {o : Output} (ho : o ∈ t)
    (he' : e' ∈ nesting.toList) : o.binder.name ≠ e'.level.index := by
  intro heq
  have hindex : e'.level.index ∈ e'.bound := Enclosing.index_mem_bound
  obtain ⟨x, hx, rfl⟩ := (Nesting.mem_toList_iff hs.depth_eq).1 he'
  rw [hl] at hx
  rcases List.eq_nil_or_concat outer with rfl | ⟨outer', y, rfl⟩
  · -- All maps are this one or inside it, where the array is not bound.
    have hhidden : x.1.level.index ∈ hidden ((e, t) :: within) := mem_hidden_of_mem_bound hx hindex
    exact hs.output_not_mem_inside hl ho (heq ▸ hhidden)
  · -- The body around the map binds the array, and no body binds an index.
    have hl' : nesting.levels targets = outer' ++ y :: (e, t) :: within := by
      rw [hl, List.concat_eq_append, ← List.append_cons]
    have hlet := hs.outputs.of_eq_append hl' o.binder.name (Target.mem_names_pattern.2 ⟨o, ho, rfl⟩)
      (heq ▸ Nesting.mem_bound.2 ⟨_, he', hindex⟩)
    exact hs.index_not_mem_letBound he' (hs.mem_toList hl') (heq ▸ hlet)

end Scoped

namespace Builds

variable {s : Selection} {bound : NameSet} {nesting : Nesting} {targets : Targets}
  {levels : List (Enclosing × Target)} {lo hi : Nat} {built : Built}

/-- The array of a level's parameter was read by a map or produced by one, or it is new. -/
theorem array_origin (h : Builds s bound levels lo hi built) {l : Level}
    (hl : l ∈ built.nest.toList) {r : RowInput} (hr : r ∈ l.inputs) :
    (∃ x ∈ levels, ∃ r' ∈ x.1.level.inputs, r'.array = r.array) ∨
      (∃ x ∈ levels, ∃ o ∈ x.2, o.binder.name = r.array) ∨ lo ≤ r.array.tag := by
  induction h generalizing l with
  | @innermost t f captures lo hi _ hcarrier hpassed _ _ _ hcloses =>
    rw [List.mem_singleton.1 hl] at hr
    rcases hcloses.array_of_mem_inputs hr with
      ⟨i, hi, harray⟩ | ⟨m, b, hb, harray⟩ | ⟨hlo, -⟩
    · exact Or.inl ⟨_, List.mem_singleton_self _, i, hi, harray⟩
    · have hp := hpassed _ (hcarrier _ b hb)
      exact Or.inr (Or.inl ⟨_, List.mem_singleton_self _, _, hp, harray⟩)
    · exact Or.inr (Or.inr hlo)
  | @enclose within t built f captures order lo mid hi hwithin _ hcarrier _ _ _ hcloses ih =>
    rw [Stack.toList_pushOuter, Stack.toList_map] at hl
    rcases List.mem_cons.1 hl with rfl | hl
    · rcases hcloses.array_of_mem_inputs hr with ⟨i, hi, harray⟩ | ⟨m, b, hb, -⟩ | ⟨hlo, -⟩
      · exact Or.inl ⟨_, List.mem_cons_self .., i, hi, harray⟩
      · rw [hcarrier] at hb
        cases hb
      · exact Or.inr (Or.inr (Nat.le_trans hwithin.le hlo))
    · obtain ⟨l', hl', rfl⟩ := List.mem_map.1 hl
      rcases ih hl' hr with ⟨x, hx, hread⟩ | ⟨x, hx, hproduced⟩ | hnew
      · exact Or.inl ⟨x, List.mem_cons_of_mem _ hx, hread⟩
      · exact Or.inr (Or.inl ⟨x, List.mem_cons_of_mem _ hx, hproduced⟩)
      · exact Or.inr (Or.inr hnew)

/-- If no map reads an index as an array, no level built does. -/
theorem array_ne_index (hs : Scoped nesting targets lo)
    (h : Builds s bound (nesting.levels targets) lo hi built)
    (hmaps : ∀ e ∈ nesting.toList, ∀ r ∈ e.level.inputs, ∀ e' ∈ nesting.toList,
      r.array ≠ e'.level.index) :
    ∀ l ∈ built.nest.toList, ∀ r ∈ l.inputs, ∀ l' ∈ built.nest.toList, r.array ≠ l'.index := by
  intro l hl r hr l' hl' heq
  obtain ⟨x', hx', hindex, -⟩ := exists_of_mem_right h.forall₂ hl'
  rw [hindex] at heq
  have hmap : ∀ x ∈ nesting.levels targets, x.1 ∈ nesting.toList := fun x hx =>
    (Nesting.mem_of_mem_levels hs.depth_eq hx).1
  rcases h.array_origin hl hr with ⟨x, hx, r', hr', harray⟩ | ⟨x, hx, o, ho, hname⟩ | hnew
  · exact hmaps x.1 (hmap x hx) r' hr' x'.1 (hmap x' hx') (harray.trans heq)
  · obtain ⟨outer, within, hsplit⟩ := List.append_of_mem hx
    exact hs.output_ne_index hsplit ho (hmap x' hx') (hname.trans heq)
  · -- A new array is younger than the index.
    have hbound : x'.1.level.index ∈ nesting.bound :=
      Nesting.mem_bound.2 ⟨x'.1, hmap x' hx', Enclosing.index_mem_bound⟩
    have := hs.tag_of_mem_bound hbound
    rw [heq] at hnew
    omega

/-! ### The arrays added to the targets -/

end Builds

/-- What a map left behind returns beyond what it did goes into arrays whose sizes are known outside
the nest. -/
theorem Frame.Closes.added_regular {f : Frame} {bound : NameSet} {demand : Demand}
    {captures : List Capture} {lo hi : Nat} (h : f.Closes bound demand captures lo hi)
    (hwidth : f.enclosing.level.width.Known bound) {o : Output}
    (ho : o ∈ captures.flatMap (·.added)) : ∀ n, .var n ∈ o.binder.ty.dims → n ∉ bound := by
  intro n hdim
  obtain ⟨c, hc, ho⟩ := List.mem_flatMap.1 ho
  cases h.drawn c hc with
  | carried b _ _ hadded =>
    rw [hadded] at ho
    cases ho
  | fresh _ _ hadded =>
    rw [hadded] at ho
    rw [List.mem_singleton.1 ho, Ty.dims_arrayOf] at hdim
    rcases List.mem_cons.1 hdim with hw | hdim
    · exact Operand.known_iff.1 hwidth n hw.symm
    · -- A row has the type of the parameter, which passed the check.
      have hparam : c.input.demote demand.consumed ∈ (f.closed demand captures).inputs :=
        Frame.mem_inputs_closed.2 ⟨c.input, Or.inr ⟨c, hc, rfl⟩, rfl⟩
      refine h.regular _ (List.mem_append_left _ (List.mem_map_of_mem hparam)) n ?_
      rwa [RowInput.dims_demote]

/-- The maps left behind return what they did, or return it into arrays whose sizes are known
outside the nest. -/
theorem Builds.added_regular {s : Selection} {bound : NameSet} {levels : List (Enclosing × Target)}
    {lo hi : Nat} {built : Built} (h : Builds s bound levels lo hi built)
    (hwidths : ∀ x ∈ levels, x.1.level.width.Known bound) :
    List.Forall₂ (fun x t => ∀ o ∈ t, o ∈ x.2 ∨ ∀ n, .var n ∈ o.binder.ty.dims → n ∉ bound) levels
      built.targets.toList := by
  refine ((List.forall₂_and_left _ _).2 ⟨hwidths, h.outputs_added⟩).imp fun x t hall o ho => ?_
  refine (hall.2 o ho).imp_right fun hadds => ?_
  obtain ⟨f, demand, captures, top, bottom, hmap, -, -, hcloses, ho⟩ := hadds
  exact hcloses.added_regular (hmap ▸ hall.1) ho

end MapNest
