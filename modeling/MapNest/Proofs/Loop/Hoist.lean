import MapNest.Proofs.Loop.Free
import MapNest.Proofs.Moves
import MapNest.Proofs.Nest.Scoped

/-!
# `MapNest.Proofs.Loop.Hoist`: when a loop leaves a nest with all it needs

The replications in front of a loop that was moved out of a nest stand outside all of its maps. A
replication made at an inner level may still mention what a map further out binds: the initial value
is replicated as soon as a level does not have it as a parameter, wherever it is bound. The start of
a loop may be an index, for instance, and then the replication mentions an index outside its map.

`Operand.Hoistable` says which initial values can leave a nest: followed outward through parameters
and captured values, they end outside the nest. `interchange_visible_iff` is the main statement.
What was moved out mentions nothing that is bound in the nest if and only if all initial values are
hoistable and all widths are known outside.

The proof follows a value through the levels of the kernel nest (`Operand.Hoists`). Level by level
this agrees with following it through the maps (`Builds.hoists_iff`), and a crossing leaves nothing
behind just if all initial values can go on (`LoopStm.Crosses.hoists_iff`).
-/

set_option autoImplicit false

namespace MapNest

/-! ### Following a value outward -/

/-- A value can be followed out of some maps, the innermost first: it is bound outside the nest, or
by the body of the map, or it is a parameter whose array can be followed further. -/
def Operand.Hoistable (bound : NameSet) : List Enclosing → Operand → Prop
  | [], v => v.Known bound
  | e :: outer, v => v.Known bound ∨ (∃ n ∈ e.letBound.toList, v = .var n) ∨
      ∃ r ∈ e.level.inputs, v = .var r.param.name ∧ Hoistable bound outer (.var r.array)

instance Operand.decidableHoistable (bound : NameSet) :
    ∀ (maps : List Enclosing) (v : Operand), Decidable (v.Hoistable bound maps)
  | [], v => inferInstanceAs (Decidable (v.Known bound))
  | e :: outer, v =>
    have := Operand.decidableHoistable bound outer
    inferInstanceAs (Decidable (v.Known bound ∨ (∃ n ∈ e.letBound.toList, v = .var n) ∨
      ∃ r ∈ e.level.inputs, v = .var r.param.name ∧ Hoistable bound outer (.var r.array)))

/-- A value is followed out of the levels of a kernel, the innermost first, to a known one. -/
def Operand.Hoists (bound : NameSet) : List Level → Operand → Prop
  | [], v => v.Known bound
  | l :: outer, v =>
    match v.name?.bind l.input? with
    | some i => Hoists bound outer (.var i.array)
    | none => v.Known bound

namespace Operand

variable {bound : NameSet} {outer : List Level} {maps : List Enclosing} {l : Level} {n : Name}
  {v : Operand} {i : RowInput}

/-- A value that is known outside need not be followed. -/
theorem hoistable_of_known (h : v.Known bound) : v.Hoistable bound maps := by
  cases maps with
  | nil => exact h
  | cons e outer => exact Or.inl h

/-- A parameter is followed through its array. -/
theorem hoists_cons_of_eq_some (h : v.name?.bind l.input? = some i) :
    v.Hoists bound (l :: outer) ↔ (Operand.var i.array).Hoists bound outer := by
  rw [Hoists, h]

/-- A value that is no parameter has to be known where it is. -/
theorem hoists_cons_of_eq_none (h : v.name?.bind l.input? = none) :
    v.Hoists bound (l :: outer) ↔ v.Known bound := by
  rw [Hoists, h]

/-- A name that nothing binds passes through all levels. -/
theorem hoists_of_not_mem_bound (hbound : ∀ l ∈ outer, n ∉ l.bound) (h : n ∉ bound) :
    (Operand.var n).Hoists bound outer := by
  cases outer with
  | nil => exact h
  | cons l outer =>
    refine (hoists_cons_of_eq_none (v := .var n) (Level.input?_eq_none_iff.2 ?_)).2 h
    rintro i hi rfl
    exact hbound l (List.mem_cons_self ..) (Level.param_mem_bound hi)

end Operand

/-- A parameter is found under its name if no other has it. -/
theorem Level.input?_eq_some_of_mem {l : Level} (hnodup : (Pattern.names l.params).Nodup)
    {i : RowInput} (hi : i ∈ l.inputs) : l.input? i.param.name = some i := by
  cases hfind : l.input? i.param.name with
  | none => exact absurd rfl (Level.input?_eq_none_iff.1 hfind i hi)
  | some j =>
    obtain ⟨hj, hname⟩ := Level.input?_eq_some hfind
    have hnodup : (l.inputs.map (·.param.name)).Nodup := by
      simpa [Pattern.names, Level.params, Function.comp_def] using hnodup
    rw [List.inj_on_of_nodup_map hnodup hj hi hname]

namespace Enclosing

variable {e : Enclosing} {bound : NameSet} {maps : List Enclosing} {n : Name}

/-- A name that is neither bound by the body of a map nor a parameter can be followed past the map
only if it is known. -/
theorem hoistable_iff_of_not_param (hlet : n ∉ e.letBound)
    (hparam : ∀ r ∈ e.level.inputs, r.param.name ≠ n) :
    (Operand.var n).Hoistable bound (e :: maps) ↔ (Operand.var n).Known bound := by
  constructor
  · rintro (hknown | ⟨m, hm, heq⟩ | ⟨r, hr, heq, -⟩)
    · exact hknown
    · cases heq
      exact absurd (NameSet.mem_toList.1 hm) hlet
    · exact absurd (Operand.var.inj heq).symm (hparam r hr)
  · exact Or.inl

/-- A parameter can be followed past its map just if its array can be followed further. -/
theorem hoistable_param_iff (h : e.names.Nodup) {r : RowInput} (hr : r ∈ e.level.inputs)
    (hbound : r.param.name ∈ bound) :
    (Operand.var r.param.name).Hoistable bound (e :: maps) ↔
      (Operand.var r.array).Hoistable bound maps := by
  have hname : r.param.name ∈ Pattern.names e.level.params :=
    List.mem_map_of_mem (List.mem_map_of_mem hr)
  have hparams := List.nodup_append.1 (List.nodup_cons.1 h).2
  -- The map binds the name once, so it can be followed in no other way than through this array.
  constructor
  · rintro (hknown | ⟨m, hm, heq⟩ | ⟨r', hr', heq, hfollowed⟩)
    · exact absurd hbound hknown
    · cases heq
      exact absurd rfl (hparams.2.2 _ hname _ hm)
    · have hfind := Level.input?_eq_some_of_mem hparams.1 hr'
      rw [← Operand.var.inj heq, Level.input?_eq_some_of_mem hparams.1 hr] at hfind
      cases hfind
      exact hfollowed
  · intro hfollowed
    exact Or.inr (Or.inr ⟨r, hr, rfl, hfollowed⟩)

end Enclosing

namespace Frame.Closes

variable {f : Frame} {bound : NameSet} {demand : Demand} {captures : List Capture} {lo hi : Nat}
  {outer : List Level} {maps : List Enclosing}

/-- A captured value is bound by the body of the map, so it can be followed past the map. -/
theorem hoistable_captured (h : f.Closes bound demand captures lo hi)
    (hbelow : ∀ n ∈ f.below, n ∈ bound → n ∈ f.enclosing.letBound) {c : Capture}
    (hc : c ∈ captures) :
    (Operand.var c.input.param.name).Hoistable bound (f.enclosing :: maps) := by
  by_cases hnest : c.input.param.name ∈ bound
  · refine Or.inr (Or.inl ⟨_, NameSet.mem_toList.2 ?_, rfl⟩)
    rcases (Frame.of_mem_captured (h.mem_captured hc)).1 with hlet | hproduced
    · exact hlet
    · exact hbelow _ hproduced hnest
  · exact Or.inl hnest

/-- What is demanded further inside and is no parameter of the level is its index, or nothing that
its map binds. -/
theorem not_bound_of_not_param (h : f.Closes bound demand captures lo hi)
    (hnodup : f.enclosing.names.Nodup) {n : Name} (hn : n ∈ demand.free)
    (hparam : ¬ ∃ r ∈ (f.closed demand captures).inputs, r.param.name = n) :
    n ∉ f.enclosing.letBound ∧ ∀ r ∈ f.enclosing.level.inputs, r.param.name ≠ n := by
  have hindex : n ∈ f.enclosing.bound → n = f.enclosing.level.index := fun hmem =>
    (Level.mem_bound.1 (Frame.mem_bound_closed_of_demand h.names hn (Or.inl hmem))).resolve_right
      hparam
  have hown := (List.nodup_cons.1 hnodup).1
  constructor
  · intro hlet
    have hname := hindex (Enclosing.mem_bound.2 (Or.inl hlet))
    rw [← hname] at hown
    exact hown (List.mem_append_right _ (NameSet.mem_toList.2 hlet))
  · rintro r hr rfl
    have hname := hindex (Enclosing.param_mem_bound hr)
    rw [← hname] at hown
    exact hown (List.mem_append_left _ (List.mem_map_of_mem (List.mem_map_of_mem hr)))

/-- What is demanded further inside can be followed past a level just if it can be followed past its
map, provided that this holds of what the level demands further out. -/
theorem hoists_iff (h : f.Closes bound demand captures lo hi)
    (hmap : ∀ n ∈ f.enclosing.bound, n ∈ bound) (hnodup : f.enclosing.names.Nodup)
    (hbelow : ∀ n ∈ f.below, n ∈ bound → n ∈ f.enclosing.letBound)
    (harrays : ∀ r ∈ (f.closed demand captures).inputs,
      r.array ∉ (f.closed demand captures).bound)
    (hcaptures : ∀ c ∈ captures, (Operand.var c.input.array).Hoistable bound maps)
    (houter : ∀ n ∈ (demand.around (f.closed demand captures)).free,
      (Operand.var n).Hoists bound outer ↔ (Operand.var n).Hoistable bound maps)
    {n : Name} (hn : n ∈ demand.free) :
    (Operand.var n).Hoists bound (f.closed demand captures :: outer) ↔
      (Operand.var n).Hoistable bound (f.enclosing :: maps) := by
  have hclosed := List.nodup_cons.1 (Frame.nodup_closed h.names (Enclosing.nodup_params hnodup))
  by_cases hparam : ∃ r ∈ (f.closed demand captures).inputs, r.param.name = n
  · obtain ⟨r, hr, rfl⟩ := hparam
    have hdemand : r.array ∈ (demand.around (f.closed demand captures)).free :=
      Demand.mem_around_free.2 (Or.inl (Level.mem_free_iff_mentions.2
        ⟨Level.mentions_array hr, harrays r hr⟩))
    rw [Operand.hoists_cons_of_eq_some (v := .var _) (Level.input?_eq_some_of_mem hclosed.2 hr),
      houter _ hdemand]
    obtain ⟨r', ⟨hr', -⟩ | ⟨c, hc, rfl⟩, rfl⟩ := Frame.mem_inputs_closed.1 hr
    · rw [RowInput.array_demote, RowInput.name_demote, Enclosing.hoistable_param_iff hnodup hr']
      exact hmap _ (Enclosing.param_mem_bound hr')
    · rw [RowInput.array_demote, RowInput.name_demote]
      exact iff_of_true (hcaptures c hc) (h.hoistable_captured hbelow hc)
  · -- No parameter has this name: the value passes the level and the map only if it is known.
    have hnone : (f.closed demand captures).input? n = none :=
      Level.input?_eq_none_iff.2 fun i hi hname => hparam ⟨i, hi, hname⟩
    obtain ⟨hlet, hown⟩ := h.not_bound_of_not_param hnodup hn hparam
    rw [Operand.hoists_cons_of_eq_none (v := .var _) hnone,
      Enclosing.hoistable_iff_of_not_param hlet hown]

end Frame.Closes

/-- The order of the arrays of a level does not matter to a value that is followed past it. -/
theorem Operand.hoists_map_permute {bound : NameSet} {order : List Nat} {levels outer : List Level}
    {v : Operand} :
    v.Hoists bound (levels.map (Level.permute order) ++ outer) ↔
      v.Hoists bound (levels ++ outer) := by
  induction levels generalizing v with
  | nil => exact Iff.rfl
  | cons l levels ih =>
    rw [List.map_cons, List.cons_append, List.cons_append]
    cases h : v.name?.bind l.input? with
    | none =>
      have h' : v.name?.bind (l.permute order).input? = none := h
      rw [hoists_cons_of_eq_none h, hoists_cons_of_eq_none h']
    | some i =>
      have h' : v.name?.bind (l.permute order).input? = some i := h
      rw [hoists_cons_of_eq_some h, hoists_cons_of_eq_some h', ih]

section Nest

variable {s : Selection} {nesting : Nesting} {targets : Targets}
  {levels outer within : List (Enclosing × Target)} {e : Enclosing} {t : Target} {lo hi : Nat}
  {built : Built}

/-- An array that a map produces can be followed out of the nest: the nest does not bind it, or the
body around the map does. -/
theorem Scoped.hoistable_output (hs : Scoped nesting targets lo)
    (hl : nesting.levels targets = outer ++ (e, t) :: within) {o : Output} (ho : o ∈ t) :
    (Operand.var o.binder.name).Hoistable nesting.bound (outer.map (·.1)).reverse := by
  by_cases hbound : o.binder.name ∈ nesting.bound
  · obtain rfl | ⟨outer, ⟨e', t'⟩, rfl⟩ := List.eq_nil_or_concat' outer
    · -- Nothing of the nest is visible around the outermost map.
      have hhidden := Nesting.mem_hidden_levels hs.depth_eq hbound
      rw [hl] at hhidden
      exact absurd hhidden (hs.output_not_mem_inside hl ho)
    · rw [List.append_assoc] at hl
      rw [List.map_append, List.reverse_append]
      refine Or.inr (Or.inl ⟨_, NameSet.mem_toList.2 ?_, rfl⟩)
      exact hs.outputs.of_eq_append hl _ (Target.mem_names_pattern.2 ⟨o, ho, rfl⟩) hbound
  · exact Operand.hoistable_of_known hbound

/-- The arrays that hand in values can be followed out of the nest, if those that carry values
can. -/
theorem Frame.Closes.hoistable_capture {f : Frame} {demand : Demand} {captures : List Capture}
    {mid : Nat} {maps : List Enclosing} (hs : Scoped nesting targets lo) (hle : lo ≤ mid)
    (h : f.Closes nesting.bound demand captures mid hi)
    (hcarrier : ∀ n b, f.carrier? n = some b →
      (Operand.var b.name).Hoistable nesting.bound maps) :
    ∀ c ∈ captures, (Operand.var c.input.array).Hoistable nesting.bound maps := by
  intro c hc
  cases h.drawn c hc with
  | carried b hb harray hadded =>
    rw [harray]
    exact hcarrier _ b hb
  | fresh hlo hhi hadded =>
    apply Operand.hoistable_of_known
    intro hbound
    have := hs.tag_of_mem_bound hbound
    omega

/-- What the statements read can be followed past the innermost level just if it can be followed
past its map, provided that this holds of what the level demands further out. -/
theorem Scoped.innermost_hoists_iff {f : Frame} {captures : List Capture} {around : List Level}
    (hs : Scoped nesting targets lo)
    (hl : nesting.levels targets = outer ++ [(f.enclosing, t)]) (hbelow : ∀ n, n ∉ f.below)
    (hcarrier : ∀ n b, f.carrier? n = some b → ⟨b, n⟩ ∈ s.passed)
    (hpassed : ∀ p ∈ s.passed, p.output ∈ t) {d : Demand} (hd : d.free = s.free ∩ nesting.bound)
    (hcloses : f.Closes nesting.bound d captures lo hi)
    (haround : ∀ n ∈ (d.around (f.closed d captures)).free,
      (Operand.var n).Hoists nesting.bound around ↔
        (Operand.var n).Hoistable nesting.bound (outer.map (·.1)).reverse)
    {v : Operand} (hv : ∀ n, v = .var n → n ∈ nesting.bound → n ∈ s.free) :
    v.Hoists nesting.bound (f.closed d captures :: around) ↔
      v.Hoistable nesting.bound (f.enclosing :: (outer.map (·.1)).reverse) := by
  have hmap := fun n (hn : n ∈ f.enclosing.bound) => hs.mem_bound hl hn
  have hinside : ∀ n ∈ (f.closed d captures).bound, n ∈ f.enclosing.inside [] := fun n hn =>
    hcloses.mem_inside_of_mem_bound (fun m hm => absurd hm (hbelow m)) hn
  by_cases hknown : v.Known nesting.bound
  · refine iff_of_true ?_ (Operand.hoistable_of_known hknown)
    -- The innermost level binds only what its map binds, so it does not bind the value.
    refine (Operand.hoists_cons_of_eq_none ?_).2 hknown
    cases v with
    | const c => rfl
    | var n =>
      refine Level.input?_eq_none_iff.2 fun i hi hname => hknown (hmap n ?_)
      have hmem := hinside n (Level.mem_bound.2 (Or.inr ⟨i, hi, hname⟩))
      exact (Enclosing.mem_inside.1 hmem).resolve_right List.not_mem_nil
  · cases v with
    | const c => exact absurd trivial hknown
    | var n =>
      have hn : n ∈ nesting.bound := by
        by_contra hn
        exact hknown hn
      have harrays := hs.innermost_array_not_mem_inside hl hcarrier hpassed hcloses
      apply hcloses.hoists_iff hmap (hs.nodup_names hl) (fun m hm => absurd hm (hbelow m))
        (fun r hr hmem => harrays r hr (hinside _ hmem)) ?_ haround
        (hd ▸ NameSet.mem_inter.2 ⟨hv n rfl hn, hn⟩)
      apply hcloses.hoistable_capture hs (Nat.le_refl _)
      intro n b hb
      exact hs.hoistable_output hl (hpassed _ (hcarrier n b hb))

/-- So can what the levels built so far demand be followed past a level put around them. -/
theorem Scoped.enclose_hoists_iff {f : Frame} {captures : List Capture} {around : List Level}
    {mid : Nat} (hs : Scoped nesting targets lo)
    (hl : nesting.levels targets = outer ++ (f.enclosing, t) :: within)
    (hwithin : Builds s nesting.bound within lo mid built)
    (hbelow : ∀ n, n ∈ f.below ↔ ∃ o ∈ built.targets.outermost, o.binder.name = n)
    (hcarrier : ∀ n, f.carrier? n = none)
    (hcloses : f.Closes nesting.bound built.demand captures mid hi)
    (haround : ∀ n ∈ (built.demand.around (f.closed built.demand captures)).free,
      (Operand.var n).Hoists nesting.bound around ↔
        (Operand.var n).Hoistable nesting.bound (outer.map (·.1)).reverse)
    {n : Name} (hn : n ∈ built.demand.free) :
    (Operand.var n).Hoists nesting.bound (f.closed built.demand captures :: around) ↔
      (Operand.var n).Hoistable nesting.bound (f.enclosing :: (outer.map (·.1)).reverse) := by
  have harrays := hs.enclose_array_not_mem_inside hl hwithin hcarrier hcloses
  have hinside := fun n hn => hcloses.mem_inside_of_mem_bound (n := n)
    (fun m hm => hwithin.mem_produced.2 ((hbelow m).1 hm)) hn
  apply hcloses.hoists_iff (fun n hn => hs.mem_bound hl hn) (hs.nodup_names hl) ?_
    (fun r hr hmem => harrays r hr (hinside _ hmem)) ?_ haround hn
  · -- What the map just inside produces now it produced before: a new array is not of the nest.
    intro m hm hbound
    rcases hwithin.mem_produced_or_new (hwithin.mem_produced.2 ((hbelow m).1 hm)) with hm | hnew
    · exact hs.outputs.of_eq_append hl m hm hbound
    · have := hs.tag_of_mem_bound hbound
      omega
  · apply hcloses.hoistable_capture hs hwithin.le
    intro n b hb
    rw [hcarrier] at hb
    cases hb

/-- What the statements read can be followed out of the levels built just if it can be followed out
of the maps, provided that this holds of what the levels demand further out. -/
theorem Builds.hoists_iff (h : Builds s nesting.bound levels lo hi built) :
    Scoped nesting targets lo → ∀ outer, nesting.levels targets = outer ++ levels →
    ∀ around : List Level,
    (∀ n ∈ built.demand.free, (Operand.var n).Hoists nesting.bound around ↔
      (Operand.var n).Hoistable nesting.bound (outer.map (·.1)).reverse) →
    ∀ v : Operand, (∀ n, v = .var n → n ∈ nesting.bound → n ∈ s.free) →
      (v.Hoists nesting.bound (built.nest.toList.reverse ++ around) ↔
        v.Hoistable nesting.bound ((outer ++ levels).map (·.1)).reverse) := by
  induction h with
  | @innermost t f captures lo hi hbelow hcarrier hpassed _ _ _ hcloses =>
    intro hs outer hl around haround v hv
    rw [List.map_append, List.reverse_append]
    exact hs.innermost_hoists_iff hl hbelow hcarrier hpassed rfl hcloses haround hv
  | @enclose within t built f captures order lo mid hi hwithin hbelow hcarrier _ _ _ hcloses ih =>
    intro hs outer hl around haround v hv
    rw [Stack.toList_pushOuter, Stack.toList_map, List.reverse_cons, ← List.map_reverse,
      List.append_assoc, Operand.hoists_map_permute, List.append_cons outer]
    -- For the levels inside, this level is the first one around them.
    refine ih hs _ (hl.trans (List.append_cons ..)) _ (fun n hn => ?_) v hv
    rw [List.map_append, List.reverse_append]
    exact hs.enclose_hoists_iff hl hwithin hbelow hcarrier hcloses haround hn

end Nest

/-! ### Crossing the levels -/

section Cross

variable {bound : NameSet} {level : Level} {levels around : List Level} {l : LoopStm} {lo hi : Nat}
  {out : Interchanged}

/-- A value can be followed past a level just if widening leaves nothing of the nest behind, and the
value outside can be followed further. -/
theorem Level.Widens.hoists_iff {m : Merge} {w : Widened} (h : level.Widens m w)
    (hwidth : level.width.Known bound) (hdims : ∀ n, .var n ∈ m.param.ty.dims → n ∉ bound)
    (hnew : ∀ n ∈ Stm.patternNames w.replicates, n ∉ bound ∧ ∀ l ∈ around, n ∉ l.bound) :
    m.init.Hoists bound (level :: around) ↔
      (∀ s ∈ w.replicates, ∀ n ∈ s.free, n ∉ bound) ∧ w.outside.init.Hoists bound around := by
  cases h with
  | @reuse array i hinit hty =>
    rw [Operand.hoists_cons_of_eq_some hinit]
    constructor
    · intro hfollowed
      exact ⟨by simp, hfollowed⟩
    · exact And.right
  | @replicate array start hinit hty hstart =>
    rw [Operand.hoists_cons_of_eq_none hinit]
    obtain ⟨hstartKnown, hstartAround⟩ := hnew start.name (List.mem_singleton_self _)
    constructor
    · intro hknown
      refine ⟨?_, Operand.hoists_of_not_mem_bound hstartAround hstartKnown⟩
      intro s hs n hn
      rw [List.mem_singleton.1 hs, Stm.mem_free_replicate, hstart, List.mem_cons] at hn
      rcases hn with hn | hn | hn | hn
      · exact Operand.known_iff.1 hwidth n hn
      · exact Operand.known_iff.1 hknown n hn
      · exact Operand.known_iff.1 hwidth n hn.symm
      · exact hdims n hn
    · rintro ⟨hvisible, -⟩
      refine Operand.known_iff.2 fun n hn => ?_
      exact hvisible _ (List.mem_singleton_self _) n (Stm.mem_free_replicate.2 (Or.inr (Or.inl hn)))

namespace LoopStm

/-- The initial values of a loop can be followed past a level just if the replications made mention
nothing of the nest, and the initial values outside can be followed further. -/
theorem Crosses.hoists_iff (h : Crosses level l lo hi out)
    (hmerge : ∀ m ∈ l.loop.merge, level.width.Known bound ∧
      ∀ n, .var n ∈ m.param.ty.dims → n ∉ bound)
    (hnew : ∀ n, lo ≤ n.tag → n ∉ bound ∧ ∀ l ∈ around, n ∉ l.bound) :
    (∀ m ∈ l.loop.merge, m.init.Hoists bound (level :: around)) ↔
      (∀ s ∈ out.prelude, ∀ n ∈ s.free, n ∉ bound) ∧
        ∀ m ∈ out.loop.loop.merge, m.init.Hoists bound around := by
  -- One carried value at a time: its replications are part of all replications.
  obtain ⟨widened, hwidened, houtside, hprelude⟩ := h.exists_widened
  have htags := h.drawn_prelude.2
  rw [hprelude] at htags ⊢
  rw [houtside]
  have hstep : ∀ m w, w ∈ widened → m ∈ l.loop.merge → level.Widens m w →
      (m.init.Hoists bound (level :: around) ↔
        (∀ s ∈ w.replicates, ∀ n ∈ s.free, n ∉ bound) ∧ w.outside.init.Hoists bound around) := by
    intro m w hw hm hwiden
    refine hwiden.hoists_iff (hmerge m hm).1 (hmerge m hm).2 fun n hn => hnew n (htags n ?_).1
    obtain ⟨s, hs, hn⟩ := Stm.mem_patternNames.1 hn
    exact Stm.mem_patternNames.2 ⟨s, List.mem_flatMap.2 ⟨w, hw, hs⟩, hn⟩
  constructor
  · intro hall
    constructor
    · intro s hs
      obtain ⟨w, hw, hs⟩ := List.mem_flatMap.1 hs
      obtain ⟨m, hm, hwiden⟩ := exists_of_mem_right hwidened hw
      exact ((hstep m w hw hm hwiden).1 (hall m hm)).1 s hs
    · intro m' hm'
      obtain ⟨w, hw, rfl⟩ := List.mem_map.1 hm'
      obtain ⟨m, hm, hwiden⟩ := exists_of_mem_right hwidened hw
      exact ((hstep m w hw hm hwiden).1 (hall m hm)).2
  · rintro ⟨hvisible, hinits⟩ m hm
    obtain ⟨w, hw, hwiden⟩ := exists_of_mem_left hwidened hm
    refine (hstep m w hw hm hwiden).2 ⟨fun s hs => hvisible s ?_, hinits _ ?_⟩
    · exact List.mem_flatMap.2 ⟨w, hw, hs⟩
    · exact List.mem_map_of_mem hw

/-- The carried values of a loop stay regular arrays when they are widened past some levels. -/
def Regular (bound : NameSet) (levels : List Level) (l : LoopStm) : Prop :=
  ∀ m ∈ l.loop.merge, (∀ level ∈ levels, level.width.Known bound) ∧
    ∀ n, .var n ∈ m.param.ty.dims → n ∉ bound

/-- What is regular over some levels is so over those further inside. -/
theorem Regular.of_cons (h : l.Regular bound (level :: levels)) : l.Regular bound levels :=
  fun m hm => ⟨fun l' hl' => (h m hm).1 l' (List.mem_cons_of_mem _ hl'), (h m hm).2⟩

/-- What is known of a loop once it stands outside some levels: it runs as before, its carried
values have the widths as outer sizes, and what it and the replications bind is new. -/
structure Stands (l : LoopStm) (levels : List Level) (lo hi : Nat) (out : Interchanged) : Prop where
  le : lo ≤ hi
  form : out.loop.loop.form = l.loop.form
  dims : List.Forall₂ (fun m m' => m'.param.ty.dims = levels.map (·.width) ++ m.param.ty.dims)
    l.loop.merge out.loop.loop.merge
  tags_names : levels ≠ [] → ∀ n ∈ out.loop.loop.names, lo ≤ n.tag
  tags_prelude : ∀ n ∈ Stm.patternNames out.prelude, lo ≤ n.tag

/-- The loop outside one level. -/
theorem Crosses.stands (h : Crosses level l lo hi out) : l.Stands [level] lo hi out := by
  obtain ⟨widened, hwidened, hmerge, -⟩ := h.exists_widened
  refine ⟨h.le, h.form_eq, ?_, fun _ n hn => (h.drawn_names.2 n hn).1,
    fun n hn => (h.drawn_prelude.2 n hn).1⟩
  rw [hmerge, List.forall₂_map_right_iff]
  refine hwidened.imp fun m w hw => ?_
  cases hw with
  | reuse _ hty => rw [hty, Ty.dims_arrayOf]; rfl
  | replicate _ hty _ => rw [hty, Ty.dims_arrayOf]; rfl

/-- The loop outside all levels. -/
theorem CrossesAll.stands (h : CrossesAll l levels lo hi out) : l.Stands levels lo hi out := by
  induction h with
  | nil =>
    refine ⟨Nat.le_refl _, rfl, ?_, fun h => absurd rfl h, fun n hn => absurd hn List.not_mem_nil⟩
    exact List.forall₂_same.2 fun m _ => rfl
  | @cons level rest inner outer lo mid hi hinner houter ih =>
    have hstep := houter.stands
    have hle := ih.le
    have hle' := hstep.le
    refine ⟨by omega, hstep.form.trans ih.form, ?_, fun _ n hn => ?_, fun n hn => ?_⟩
    · -- The widths of the levels further inside are sizes already, and one more is put in front.
      have hcomp := List.forall₂_iff_get.1 ih.dims
      have hcomp' := List.forall₂_iff_get.1 hstep.dims
      refine List.forall₂_iff_get.2 ⟨hcomp.1.trans hcomp'.1, fun k h₁ h₂ => ?_⟩
      rw [hcomp'.2 k (hcomp.1 ▸ h₁) h₂, hcomp.2 k h₁ (hcomp.1 ▸ h₁)]
      rfl
    · have := hstep.tags_names (by simp) n hn
      omega
    · rw [Stm.patternNames, List.flatMap_append, List.mem_append] at hn
      rcases hn with hn | hn
      · exact ih.tags_prelude n hn
      · have := hstep.tags_prelude n hn
        omega

/-- The sizes of a loop's carried values are known once it stands outside some levels. -/
theorem Stands.known_dims (h : l.Stands levels lo hi out) (hregular : l.Regular bound levels) :
    ∀ m ∈ out.loop.loop.merge, ∀ n, .var n ∈ m.param.ty.dims → n ∉ bound := by
  intro m' hm' n hn
  obtain ⟨m, hm, hdims⟩ := exists_of_mem_right h.dims hm'
  rw [hdims, List.mem_append, List.mem_map] at hn
  rcases hn with ⟨level, hlevel, hwidth⟩ | hn
  · exact Operand.known_iff.1 ((hregular m hm).1 level hlevel) n hwidth
  · exact (hregular m hm).2 n hn

/-- The initial values of a loop can be followed past some levels just if the replications made
mention nothing of the nest, and the initial values outside can be followed further. -/
theorem CrossesAll.hoists_iff (h : CrossesAll l levels lo hi out) :
    l.Regular bound levels →
    ∀ around : List Level, (∀ n, lo ≤ n.tag → n ∉ bound ∧ ∀ l ∈ levels ++ around, n ∉ l.bound) →
    ((∀ m ∈ l.loop.merge, m.init.Hoists bound (levels.reverse ++ around)) ↔
      (∀ s ∈ out.prelude, ∀ n ∈ s.free, n ∉ bound) ∧
        ∀ m ∈ out.loop.loop.merge, m.init.Hoists bound around) := by
  induction h with
  | nil =>
    intro _ around _
    simp
  | @cons level rest inner outer lo mid hi hinner houter ih =>
    intro hregular around hnew
    -- The values go past the levels further inside first, and this level is around those.
    have hle := hinner.le
    have hdims := hinner.stands.known_dims hregular.of_cons
    have hinnerIff := ih hregular.of_cons (level :: around) fun n hn =>
      ⟨(hnew n hn).1, fun l' hl' => (hnew n hn).2 l' (by grind)⟩
    have houterIff : (∀ m ∈ inner.loop.loop.merge, m.init.Hoists bound (level :: around)) ↔ _ :=
      houter.hoists_iff
        (fun m' hm' => by
          obtain ⟨m, hm, -⟩ := exists_of_mem_right hinner.stands.dims hm'
          exact ⟨(hregular m hm).1 level (List.mem_cons_self ..), hdims m' hm'⟩)
        (fun n hn => ⟨(hnew n (by omega)).1, fun l' hl' =>
          (hnew n (by omega)).2 l' (List.mem_append_right _ hl')⟩)
    rw [List.reverse_cons, List.append_assoc]
    show (∀ m ∈ l.loop.merge, m.init.Hoists bound (rest.reverse ++ (level :: around))) ↔ _
    rw [hinnerIff, houterIff]
    simp only [List.mem_append]
    grind

/-- What a loop outside some levels mentions of the nest, the levels demand, if they demand what the
loop inside mentions. -/
theorem CrossesAll.mem_demand (h : CrossesAll l levels lo hi out) {d : Demand} {n : Name}
    (hn : n ∈ bound) (htag : n.tag < lo) (hfree : n ∈ l.loop.free → n ∈ d.free) :
    (∀ level ∈ levels, level.Scoped bound) → l.Regular bound levels →
    n ∈ out.loop.loop.free → n ∈ (d.aroundAll levels).free := by
  induction h with
  | nil => exact fun _ _ => hfree
  | @cons level rest inner outer lo mid hi hinner houter ih =>
    intro hlevels hregular hloop
    rw [Demand.mem_aroundAll_cons]
    rcases houter.mem_free hloop with hm | ⟨hinside, hbound⟩ | ⟨m, hm, hdims⟩ | hprelude
    · -- What a well-scoped level mentions of the nest it does not bind, so it asks for it.
      refine Or.inl (Level.mem_free_iff_mentions.2 ⟨hm, ?_⟩)
      exact (hlevels level (List.mem_cons_self ..)).mentions n hn hm
    · refine Or.inr ⟨ih htag (fun l' hl' => hlevels l' (List.mem_cons_of_mem _ hl'))
        hregular.of_cons hinside, hbound⟩
    · exact absurd hn (hinner.stands.known_dims hregular.of_cons m hm n hdims)
    · have := houter.stands.tags_prelude n hprelude
      have := hinner.le
      omega

/-- If a loop outside some levels mentions nothing of the nest, its carried values have stayed
regular: the widths are among their sizes. -/
theorem Stands.regular (h : l.Stands levels lo hi out) (hne : levels ≠ [])
    (hold : ∀ n, lo ≤ n.tag → n ∉ bound) (hindex : ∀ b ∈ l.loop.form.binders, b.name ∉ bound)
    (htypes : ∀ m ∈ l.loop.merge, ∀ n, .var n ∈ m.param.ty.dims → n ∉ bound)
    (hloop : ∀ n ∈ out.loop.loop.free, n ∉ bound) : l.Regular bound levels := by
  intro m hm
  refine ⟨fun level hlevel => Operand.known_iff.2 fun n hn hbound => ?_, htypes m hm⟩
  -- A width that the nest binds would be mentioned as a size, and no binder of the loop hides it.
  obtain ⟨m', hm', hdims⟩ := exists_of_mem_left h.dims hm
  refine hloop n (Loop.mem_free.2 (Or.inl ⟨Or.inr ?_, ?_, ?_⟩)) hbound
  · refine Pattern.mem_dimNames.2 ⟨m'.param, List.mem_map_of_mem hm', ?_⟩
    rw [hdims, ← hn]
    exact List.mem_append_left _ (List.mem_map_of_mem hlevel)
  · rw [h.form]
    intro hname
    obtain ⟨b, hb, rfl⟩ := Pattern.mem_names.1 hname
    exact hindex b hb hbound
  · intro hname
    exact hold n (h.tags_names hne n hname) hbound

/-- What a moved loop mentions is known outside the nest if and only if its carried values stay
regular and its initial values can be followed past all levels. -/
theorem CrossesAll.visible_iff (h : CrossesAll l levels lo hi out) (hne : levels ≠ [])
    (hlevels : ∀ level ∈ levels, level.Scoped bound)
    (hold : ∀ n, lo ≤ n.tag → n ∉ bound ∧ ∀ level ∈ levels, n ∉ level.bound)
    (hindex : ∀ b ∈ l.loop.form.binders, b.name ∉ bound)
    (htypes : ∀ m ∈ l.loop.merge, ∀ n, .var n ∈ m.param.ty.dims → n ∉ bound) {d : Demand}
    (hfree : ∀ n ∈ bound, n ∈ l.loop.free → n ∈ d.free)
    (hdemand : ∀ n ∈ bound, n ∉ (d.aroundAll levels).free) :
    (∀ n ∈ Stm.freeAll (out.prelude ++ [out.loop.toStm]), n ∉ bound) ↔
      l.Regular bound levels ∧ ∀ m ∈ l.loop.merge, m.init.Hoists bound levels.reverse := by
  have hstands := h.stands
  have hhoists := fun hregular : l.Regular bound levels =>
    h.hoists_iff hregular [] (by simpa using hold)
  rw [List.append_nil] at hhoists
  rw [Stm.forall_freeAll_append_iff fun n hn => (hold n (hstands.tags_prelude n hn)).1]
  constructor
  · rintro ⟨hprelude, hvisible⟩
    have hloop : ∀ n ∈ out.loop.loop.free, n ∉ bound := fun n hn =>
      hvisible n (Stm.mem_freeAll_singleton.2 (Stm.mem_free.2 (Or.inl hn)))
    have hregular := hstands.regular hne (fun n hn => (hold n hn).1) hindex htypes hloop
    refine ⟨hregular, (hhoists hregular).2 ⟨hprelude, fun m hm => ?_⟩⟩
    -- What is left of an initial value outside all levels, the loop mentions.
    refine Operand.known_iff.2 fun n hn => hloop n ?_
    exact Loop.mem_free.2 (Or.inr (Or.inl ⟨m, hm, hn⟩))
  · rintro ⟨hregular, hinits⟩
    refine ⟨((hhoists hregular).1 hinits).1, fun n hn hbound => ?_⟩
    rcases Stm.mem_free.1 (Stm.mem_freeAll_singleton.1 hn) with hn | hn
    · -- A name of the nest that the loop mentions, the levels would demand.
      have htag : n.tag < lo := by
        by_contra hle
        exact (hold n (by omega)).1 hbound
      exact hdemand n hbound (h.mem_demand hbound htag (hfree n hbound) hlevels hregular hn)
    · -- The arrays bound are those of the outermost level, which is regular.
      obtain ⟨level, rest, rfl⟩ := List.exists_cons_of_ne_nil hne
      obtain ⟨b, hb, hdims⟩ := Pattern.mem_dimNames.1 hn
      have hb : b ∈ level.pattern := h.pattern.1 ▸ hb
      exact (hlevels level (List.mem_cons_self ..)).regular b (List.mem_append_right _ hb) n hdims
        hbound

end LoopStm

end Cross

/-! ### Moving a loop out of a nest -/

/-- What a loop returns has no part in its free names. -/
theorem Loop.free_ret {l : Loop} {ret : List Name} : ({ l with ret } : Loop).free = l.free := by
  obtain ⟨ret', merge, form, body⟩ := l
  rw [Loop.free, Loop.free]

/-- What a loop mentions, its statement reads, unless it binds it itself. -/
theorem LoopStm.mem_free_ofStms {targets : Targets} {l : LoopStm}
    (hown : ∀ n ∈ l.loop.free, n ∉ Pattern.names l.pattern) {n : Name} (hn : n ∈ l.loop.free) :
    n ∈ (Selection.ofStms targets [l.toStm]).free := by
  refine NameSet.mem_sdiff.2 ⟨Stm.mem_freeAll_singleton.2 (Stm.mem_free.2 (Or.inl hn)), ?_⟩
  rw [Stm.mem_bound]
  rintro ⟨s, hs, b, hb, hname⟩
  rw [List.mem_singleton.1 hs] at hb
  exact hown n hn (Pattern.mem_names.2 ⟨b, hb, hname⟩)

/-- A loop that is moved out of a well-scoped nest mentions nothing that is bound in the nest if and
only if, as soon as it carries any value, the widths are known outside the nest and each initial
value can be followed out of it. -/
theorem interchange_visible_iff {settings : Settings} {nesting : Nesting} {targets : Targets}
    {l : LoopStm} {st st' : Attempt} {moved : Moved}
    (hs : Scoped nesting targets st.supply.next)
    (hindex : ∀ b ∈ l.loop.form.binders, b.name ∉ nesting.bound)
    (htypes : ∀ m ∈ l.loop.merge, ∀ n, .var n ∈ m.param.ty.dims → n ∉ nesting.bound)
    (hown : ∀ n ∈ l.loop.free, n ∉ Pattern.names l.pattern)
    (h : interchange settings nesting targets l.toStm st = .ok moved st') :
    (∀ n ∈ Stm.freeAll moved.stms, n ∉ nesting.bound) ↔
      ∀ m ∈ l.loop.merge, m.init.Hoistable nesting.bound nesting.toList.reverse ∧
        ∀ e ∈ nesting.toList, e.level.width.Known nesting.bound := by
  obtain ⟨_, l', planned, s, hloop, hplan, hselect, hmove, -⟩ := interchange_eq_ok h
  rw [LoopStm.ofStm?_toStm] at hloop
  cases hloop
  obtain ⟨hnest, -⟩ := plan_eq_ok hplan
  obtain ⟨demand, hbuilds⟩ := Selection.builds_of_kernelNest_eq_ok hnest
  obtain ⟨ret, hl'⟩ := LoopStm.loop_of_select?_eq_some hselect
  obtain ⟨out, hcross, hstms⟩ := LoopStm.crossesAll_of_interchangeAll_eq_ok hmove
  have hmerge : l'.loop.merge = l.loop.merge := by rw [hl']
  have hold : ∀ n, s.supply.next ≤ n.tag →
      n ∉ nesting.bound ∧ ∀ l' ∈ planned.nest.toList, n ∉ l'.bound := by
    intro n htag
    refine ⟨fun hbound => ?_, fun l' hl' hbound => ?_⟩
    · have := hs.tag_of_mem_bound hbound
      have := hbuilds.le
      omega
    · have := hbuilds.tag_of_mem_bound hs.toConsistent hl' hbound
      omega
  have hdemand : ∀ n ∈ nesting.bound, n ∉ (Demand.aroundAll _ planned.nest.toList).free :=
    fun n hn => hbuilds.demand_eq ▸ hbuilds.not_mem_demand hs hn hn
  rw [hstms, hcross.visible_iff (by simp [Stack.toList]) (hbuilds.level_scoped hs [] rfl) hold
    (by rw [hl']; exact hindex) (by rw [hmerge]; exact htypes)
    (fun n hn hfree => NameSet.mem_inter.2
      ⟨LoopStm.mem_free_ofStms hown (by rwa [hl', Loop.free_ret] at hfree), hn⟩)
    hdemand, LoopStm.Regular, hmerge]
  -- The levels have the widths of the maps, and values are followed past both alike.
  have hwidths : (∀ l' ∈ planned.nest.toList, l'.width.Known nesting.bound) ↔
      ∀ e ∈ nesting.toList, e.level.width.Known nesting.bound :=
    hbuilds.widths_known_iff hs.depth_eq
  have hfollow : ∀ m ∈ l.loop.merge,
      (m.init.Hoists nesting.bound planned.nest.toList.reverse ↔
        m.init.Hoistable nesting.bound nesting.toList.reverse) := by
    intro m hm
    have hiff := hbuilds.hoists_iff hs [] rfl [] (fun n _ => Iff.rfl) m.init fun n hn _ =>
      LoopStm.mem_free_ofStms hown (Loop.mem_free.2 (Or.inr (Or.inl ⟨m, hm, hn⟩)))
    rwa [List.append_nil, List.nil_append, Nesting.map_fst_levels hs.depth_eq] at hiff
  constructor
  · rintro ⟨hregular, hinits⟩ m hm
    exact ⟨(hfollow m hm).1 (hinits m hm), hwidths.1 (hregular m hm).1⟩
  · intro hall
    exact ⟨fun m hm => ⟨hwidths.2 (hall m hm).2, htypes m hm⟩,
      fun m hm => (hfollow m hm).2 (hall m hm).1⟩

/-! A loop that starts with a row of a row of a matrix can leave both maps:

    map i < 2 (x <- xs):
      map j < 2 (z <- x):
        a = loop (acc = z) for k < 5:
          acc + 1
-/

namespace Rows

/-- The maps. -/
def nesting : Nesting :=
  ⟨[⟨{⟨"b", 6⟩},
      ⟨[⟨⟨"ys", 7⟩, .array .i32 [.ofInt32 2, .ofInt32 2] false⟩], [], .ofInt32 2, ⟨"i", 1⟩,
        [⟨⟨⟨"x", 2⟩, .array .i32 [.ofInt32 2] false⟩, ⟨"xs", 0⟩⟩]⟩⟩],
    ⟨∅, ⟨[⟨⟨"b", 6⟩, .array .i32 [.ofInt32 2] false⟩], [], .ofInt32 2, ⟨"j", 3⟩,
      [⟨⟨⟨"z", 4⟩, .scalar .i32⟩, ⟨"x", 2⟩⟩]⟩⟩⟩

/-- What they produce. -/
def targets : Targets :=
  ⟨[[⟨⟨⟨"ys", 7⟩, .array .i32 [.ofInt32 2, .ofInt32 2] false⟩, .var ⟨"b", 6⟩⟩]],
    [⟨⟨⟨"b", 6⟩, .array .i32 [.ofInt32 2] false⟩, .var ⟨"a", 5⟩⟩]⟩

/-- The loop at the heart. -/
def loop : LoopStm :=
  ⟨[⟨⟨"a", 5⟩, .scalar .i32⟩],
    ⟨[⟨"acc", 8⟩], [⟨⟨⟨"acc", 8⟩, .scalar .i32⟩, .var ⟨"z", 4⟩⟩], .forBelow ⟨"k", 9⟩ (.ofInt32 5),
      .ofStms [Stm.arith .add ⟨"r", 10⟩ .i32 (.var ⟨"acc", 8⟩) (.ofInt32 1)] [.var ⟨"r", 10⟩]⟩⟩

/-- The attempt to move it. -/
def attempt : Attempt := { supply := ⟨11⟩ }

/-- Every name of the nest is bound once, and the sizes are constants. -/
theorem nest_scoped : Scoped nesting targets 11 where
  depth_eq := rfl
  nodup := by decide
  arrays := by decide
  patterns := by decide
  tags_declared := by decide
  tags_free := by decide
  widths := by decide
  checks := by decide
  shapes := by decide
  outputs := by decide

end Rows

/-- The loop is moved, and no name bound in the nest is left in sight. -/
theorem interchange_visible_iff_rows :
    ∃ moved st', interchange {} Rows.nesting Rows.targets Rows.loop.toStm Rows.attempt
        = .ok moved st' ∧ moved.stms.length = 1 ∧
      ∀ n ∈ Stm.freeAll moved.stms, n ∉ Rows.nesting.bound := by
  have hmoves : passes (fun moved => decide (moved.stms.length = 1))
      (interchange {} Rows.nesting Rows.targets Rows.loop.toStm Rows.attempt) = true := by
    decide +kernel
  obtain ⟨moved, st', h, hlen⟩ := exists_of_passes hmoves
  have htypes : ∀ m ∈ Rows.loop.loop.merge, ∀ n, .var n ∈ m.param.ty.dims →
      n ∉ Rows.nesting.bound := by
    intro m hm n hn
    rw [List.mem_singleton.1 hm] at hn
    exact absurd hn List.not_mem_nil
  have hown : ∀ n ∈ Rows.loop.loop.free.toList, n ∉ Pattern.names Rows.loop.pattern := by decide
  refine ⟨moved, st', h, of_decide_eq_true hlen,
    (interchange_visible_iff Rows.nest_scoped ?_ htypes ?_ h).2 ?_⟩
  · decide
  · intro n hn
    exact hown n (NameSet.mem_toList.2 hn)
  · decide

/-! A loop that starts with an index cannot leave its map, and is moved all the same:

    map i < 3:
      b = loop (acc = i) for j < 5:
        acc + 1
-/

namespace Indices

/-- The map. -/
def nesting : Nesting :=
  .single ⟨∅, ⟨[⟨⟨"ys", 0⟩, .array .i32 [.ofInt32 3] false⟩], [], .ofInt32 3, ⟨"i", 1⟩, []⟩⟩

/-- What it produces. -/
def targets : Targets := .single [⟨⟨⟨"ys", 0⟩, .array .i32 [.ofInt32 3] false⟩, .var ⟨"b", 2⟩⟩]

/-- The loop inside it. -/
def loop : LoopStm :=
  ⟨[⟨⟨"b", 2⟩, .scalar .i32⟩],
    ⟨[⟨"acc", 3⟩], [⟨⟨⟨"acc", 3⟩, .scalar .i32⟩, .var ⟨"i", 1⟩⟩], .forBelow ⟨"j", 4⟩ (.ofInt32 5),
      .ofStms [Stm.arith .add ⟨"r", 5⟩ .i32 (.var ⟨"acc", 3⟩) (.ofInt32 1)] [.var ⟨"r", 5⟩]⟩⟩

/-- The attempt to move it. -/
def attempt : Attempt := { supply := ⟨7⟩ }

/-- Every name of the map is bound once. -/
theorem nest_scoped : Scoped nesting targets 7 where
  depth_eq := rfl
  nodup := by decide
  arrays := by decide
  patterns := by decide
  tags_declared := by decide
  tags_free := by decide
  widths := by decide
  checks := by decide
  shapes := by decide
  outputs := by decide

end Indices

/-- The index is replicated in front of the loop, where no map binds it. -/
theorem interchange_escapes_index :
    Scoped Indices.nesting Indices.targets Indices.attempt.supply.next ∧
      (∀ m ∈ Indices.loop.loop.merge, m.param.ty.dims = []) ∧
      ∃ moved st', interchange {} Indices.nesting Indices.targets Indices.loop.toStm
          Indices.attempt = .ok moved st' ∧
        moved.stms.head? = some (Stm.replicate
          ⟨⟨"acc_expanded_init", 8⟩, .array .i32 [.ofInt32 3] true⟩ (.ofInt32 3) (.var ⟨"i", 1⟩)) ∧
        ⟨"i", 1⟩ ∈ Stm.freeAll moved.stms ∧ ⟨"i", 1⟩ ∈ Indices.nesting.bound := by
  refine ⟨Indices.nest_scoped, by decide, _, _, rfl, rfl, ?_, by decide⟩
  exact NameSet.mem_union.2 (Or.inl (by decide))

end MapNest
