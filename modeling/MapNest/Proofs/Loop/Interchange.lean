import MapNest.Proofs.Loop.Free
import MapNest.Proofs.Semantics.Run

/-!
# `MapNest.Proofs.Loop.Interchange`: moving a loop out of a nest keeps its meaning

A loop inside a nest of maps runs once at every point, and the maps collect what it returns row by
row (`LoopStm.collect`). Outside the nest, one loop runs, and each of its iterations runs the maps.
`LoopStm.run_interchangeAll` is the main statement: the statements that `LoopStm.interchangeAll`
gives run, and bind the arrays of the outermost level to what would have been collected.

The body of the loop may be run in any way, as long as what it gives is a function of its free
names, so the proof is about the maps and loops around it. `Crosses.run_loop` is the step for one
level. It says that the loop outside the level computes the columns of what the loop inside computes
in each iteration of the level, and rests on three facts: the initial values are the columns of the
initial values inside (`Crosses.inits`), one iteration keeps that up (`Crosses.run_body`), and the
returned values stand at the same places (`Crosses.positions?`). `CrossesAll.run_loop` is the
induction over the levels.
-/

set_option autoImplicit false

namespace MapNest

/-! ### Replications and copies -/

/-- A replication or a copy whose name is drawn after those it mentions. -/
inductive Stm.Plain : Stm → Prop
  | copy {b : Binder} {array : Name} (h : array.tag < b.name.tag) : Plain (Stm.copy b array)
  | replicate {b : Binder} {count v : Operand}
      (hcount : ∀ n, count = .var n → n.tag < b.name.tag)
      (hv : ∀ n, v = .var n → n.tag < b.name.tag) : Plain (Stm.replicate b count v)

/-- The names that a statement binds have the values that its expression has. -/
def Stm.Holds (inner : Runner) (ρ : Env) (s : Stm) : Prop :=
  s.exp.run inner ρ = some ((Pattern.names s.pattern).map ρ)

/-- A replication or a copy binds one name, always has a value, and takes it from older names. -/
theorem Stm.Plain.exists_value {s : Stm} (h : s.Plain) (inner : Runner) :
    ∃ b : Binder, Pattern.names s.pattern = [b.name] ∧ (∀ ρ, ∃ v, s.exp.run inner ρ = some [v]) ∧
      ∀ ρ σ : Env, (∀ n, n.tag < b.name.tag → ρ n = σ n) →
        s.exp.run inner ρ = s.exp.run inner σ := by
  cases h with
  | @copy b array harray =>
    refine ⟨b, rfl, fun ρ => ⟨_, rfl⟩, ?_⟩
    intro ρ σ h
    show some [ρ array] = some [σ array]
    rw [h array harray]
  | @replicate b count v hcount hv =>
    refine ⟨b, rfl, fun ρ => ⟨_, rfl⟩, ?_⟩
    intro ρ σ h
    show some [Value.array (List.replicate (count.eval ρ).count (v.eval ρ))] = some [_]
    rw [Operand.eval_congr fun n hn => h n (hcount n hn),
      Operand.eval_congr fun n hn => h n (hv n hn)]

/-- Replications and copies whose names are drawn one after the other run, and hold in the end. -/
theorem Stm.exists_runAll_plain (inner : Runner) {stms : List Stm} {lo hi : Nat} (ρ : Env)
    (hplain : ∀ s ∈ stms, s.Plain) (hdrawn : Drawn lo hi (Stm.patternNames stms)) :
    ∃ σ, Stm.runAll inner stms ρ = some σ ∧ (∀ n, n ∉ Stm.patternNames stms → σ n = ρ n) ∧
      ∀ s ∈ stms, s.Holds inner σ := by
  -- The first name is older than those that come after it, so its value is there to stay.
  induction stms generalizing ρ lo with
  | nil => exact ⟨ρ, rfl, fun n _ => rfl, by simp⟩
  | cons s rest ih =>
    obtain ⟨b, hb, hsome, hcongr⟩ := (hplain s (List.mem_cons_self ..)).exists_value inner
    obtain ⟨v, hv⟩ := hsome ρ
    have hnames : Stm.patternNames (s :: rest) = b.name :: Stm.patternNames rest := by
      rw [patternNames, List.flatMap_cons, hb]
      rfl
    rw [hnames] at hdrawn
    obtain ⟨hlt, -⟩ := List.pairwise_cons.1 hdrawn.1
    obtain ⟨σ, hσ, hframe, hholds⟩ := ih (ρ.bind b.name v)
      (fun s hs => hplain s (List.mem_cons_of_mem _ hs))
      (hdrawn.sublist (List.sublist_cons_self ..))
    have hold : ∀ n, n.tag ≤ b.name.tag → n ∉ Stm.patternNames rest := by
      intro n hn hmem
      have := hlt n hmem
      omega
    have hself : σ b.name = v := by
      rw [hframe b.name (hold b.name (Nat.le_refl _)), Env.bind_self]
    refine ⟨σ, ?_, ?_, ?_⟩
    · rw [runAll, Stm.run, hv, hb]
      exact hσ
    · intro n hn
      rw [hnames, List.mem_cons, not_or] at hn
      rw [hframe n hn.2, Env.bind_of_ne hn.1]
    · intro s' hs'
      rcases List.mem_cons.1 hs' with rfl | hs'
      · -- What the statement mentions is older than its name, so nothing has changed it since.
        rw [Holds, hb, List.map_singleton, hself, ← hv]
        refine (hcongr ρ σ fun n hn => ?_).symm
        rw [hframe n (hold n (Nat.le_of_lt hn)), Env.bind_of_ne]
        rintro rfl
        exact Nat.lt_irrefl _ hn
      · exact hholds s' hs'

/-! ### Crossing one level -/

/-- A loop stands inside a level, and may be moved out of it. -/
structure Level.Crossable (level : Level) (l : Loop) (lo : Nat) : Prop where
  /-- The level binds no name twice. -/
  nodup : (level.index :: Pattern.names level.params).Nodup
  /-- The index of the loop is bound nowhere else. -/
  index : ∀ b ∈ l.form.binders, b.name ∉ level.bound ∧ b.name ∉ level.arrays ∧
    level.width ≠ .var b.name
  /-- An initial value is a parameter of the level, or is known outside it. -/
  inits : ∀ m ∈ l.merge, (∃ i, m.init.name?.bind level.input? = some i) ∨
    ∀ n, m.init = .var n → n ∉ level.bound
  /-- What the level binds and mentions has an earlier tag. -/
  tags_level : ∀ n, n ∈ level.bound ∨ n ∈ level.free → n.tag < lo
  /-- What the loop binds and mentions has an earlier tag. -/
  tags_loop : ∀ n, n ∈ l.free ∨ n ∈ l.names ∨ n ∈ Pattern.names l.form.binders → n.tag < lo

namespace Level.Crossable

variable {level : Level} {l : Loop} {lo : Nat}

/-- What the level mentions has an earlier tag. -/
theorem tag_mention (h : level.Crossable l lo) {n : Name} (hn : level.Mentions n) : n.tag < lo :=
  h.tags_level n hn.mem_bound_or_free

/-- An array of the level has an earlier tag. -/
theorem tag_array (h : level.Crossable l lo) {r : RowInput} (hr : r ∈ level.inputs) :
    r.array.tag < lo :=
  h.tag_mention (Level.mentions_array hr)

/-- The width of the level has an earlier tag. -/
theorem tag_width (h : level.Crossable l lo) {n : Name} (hn : level.width = .var n) :
    n.tag < lo :=
  h.tag_mention (Or.inl hn)

/-- What the loop reads has an earlier tag, whether the loop binds it or not. -/
theorem tag_reads (h : level.Crossable l lo) {n : Name}
    (hn : n ∈ l.body.free ∨ n ∈ Pattern.dimNames (l.merge.map (·.param))) : n.tag < lo := by
  refine h.tags_loop _ ?_
  by_cases hnames : n ∈ l.names
  · exact Or.inr (Or.inl hnames)
  · by_cases hindex : n ∈ Pattern.names l.form.binders
    · exact Or.inr (Or.inr hindex)
    · exact Or.inl (Loop.mem_free.2 (Or.inl ⟨hn, hindex, hnames⟩))

/-- An initial value of the loop has an earlier tag. -/
theorem tag_init (h : level.Crossable l lo) {m : Merge} (hm : m ∈ l.merge) {n : Name}
    (hn : m.init = .var n) : n.tag < lo :=
  h.tags_loop _ (Or.inl (Loop.mem_free.2 (Or.inr (Or.inl ⟨m, hm, hn⟩))))

end Level.Crossable

section Step

variable {level : Level} {l : LoopStm} {widened : List Widened} {lo hi : Nat} {inner : Runner}
  {ρ : Env}

/-- The initial value outside is the column of those in the iterations of the level. -/
theorem Level.Widens.eval_init {m : Merge} {w : Widened} (hw : level.Widens m w)
    (hnodup : (level.index :: Pattern.names level.params).Nodup)
    (hinit : (∃ i, m.init.name?.bind level.input? = some i) ∨
      ∀ n, m.init = .var n → n ∉ level.bound)
    (hρ : ∀ s ∈ w.replicates, s.Holds inner ρ)
    (hsized : ∀ r ∈ level.inputs, (ρ r.array).hasRows (level.width.eval ρ).count) :
    w.outside.init.eval ρ = .array ((List.range (level.width.eval ρ).count).map fun i =>
      m.init.eval (level.enter i ρ)) := by
  cases hw with
  | @reuse array i hinput hty =>
    -- The rows of a reused array are what the parameter stands for.
    obtain ⟨n, hn, hi⟩ := Option.bind_eq_some_iff.1 hinput
    obtain ⟨himem, rfl⟩ := Level.input?_eq_some hi
    rw [Operand.name?_eq_some_iff.1 hn]
    refine (Value.eq_of_hasRows (hsized i himem)).trans ?_
    congr 1
    refine List.map_congr_left fun k hk => ?_
    exact (Level.enter_param (List.nodup_cons.1 hnodup).2 himem).symm
  | @replicate array start hinput hty hstart =>
    -- Entering the level does not change what is replicated.
    have hout : ∀ n, m.init = .var n → n ∉ level.bound := by
      rcases hinit with ⟨i, hi⟩ | hout
      · rw [hinput] at hi
        cases hi
      · exact hout
    have hstart : ρ start.name
        = .array (List.replicate (level.width.eval ρ).count (m.init.eval ρ)) := by
      have h : some [Value.array _] = some [ρ start.name] := hρ _ (List.mem_singleton_self _)
      simpa using h.symm
    refine hstart.trans ?_
    congr 1
    refine (List.eq_replicate_iff.2 ⟨by simp, ?_⟩).symm
    intro v hv
    obtain ⟨i, -, rfl⟩ := List.mem_map.1 hv
    exact Operand.eval_congr fun n hn => Level.enter_of_not_mem_bound (hout n hn)

/-- The initial values outside are the columns of those in the iterations of the level. -/
theorem Level.map_inits {merge : List Merge}
    (hnodup : (level.index :: Pattern.names level.params).Nodup)
    (hinits : ∀ m ∈ merge, (∃ i, m.init.name?.bind level.input? = some i) ∨
      ∀ n, m.init = .var n → n ∉ level.bound)
    (hwidened : List.Forall₂ level.Widens merge widened)
    (hρ : ∀ s ∈ widened.flatMap (·.replicates), s.Holds inner ρ)
    (hsized : ∀ r ∈ level.inputs, (ρ r.array).hasRows (level.width.eval ρ).count) :
    (widened.map (·.outside)).map (fun m => m.init.eval ρ)
      = columns widened.length ((List.range (level.width.eval ρ).count).map fun i =>
          merge.map fun m => m.init.eval (level.enter i ρ)) := by
  rw [← hwidened.length_eq, columns_map_map, List.map_map]
  refine (map_eq_map_of_forall₂ hwidened fun m hm w hmem hw => ?_).symm
  exact (hw.eval_init hnodup (hinits m hm)
    (fun s hs => hρ s (List.mem_flatMap.2 ⟨w, hmem, hs⟩)) hsized).symm

/-- Widening keeps the names that the loop carries inside the level, in their order. -/
theorem Level.names_inside (hwidened : List.Forall₂ level.Widens l.loop.merge widened) :
    widened.map (·.inside.param.name) = l.loop.names :=
  (map_eq_map_of_forall₂ hwidened fun m _ w _ hw => by rw [hw.inside_eq]).symm

/-- A returned value stands at one place inside and outside the level. -/
theorem Widened.exists_position {n : Name} {w : Widened}
    (hnodup : (widened.map (·.outside.param.name)).Nodup)
    (hw : widened.find? (·.inside.param.name = n) = some w) :
    ∃ p < widened.length, (widened.map (·.inside.param.name)).findIdx? (· = n) = some p ∧
      (widened.map (·.outside.param.name)).findIdx? (· = w.outside.param.name) = some p := by
  -- Names outside are distinct, so the search for one stops where the search inside does.
  induction widened with
  | nil => cases hw
  | cons v widened ih =>
    obtain ⟨hv, hnodup⟩ := List.nodup_cons.1 hnodup
    by_cases hn : v.inside.param.name = n
    · rw [List.find?_cons_of_pos (by simpa using hn)] at hw
      cases hw
      exact ⟨0, by simp, by simp [List.findIdx?_cons, hn], by simp [List.findIdx?_cons]⟩
    · rw [List.find?_cons_of_neg (by simpa using hn)] at hw
      have hne : v.outside.param.name ≠ w.outside.param.name := by
        intro heq
        exact hv (List.mem_map.2 ⟨w, List.mem_of_find?_eq_some hw, heq.symm⟩)
      obtain ⟨p, hp, hinside, houtside⟩ := ih hnodup hw
      refine ⟨p + 1, by simpa using hp, ?_, ?_⟩
      · simp [List.findIdx?_cons, hn, hinside]
      · simp [List.findIdx?_cons, hne, houtside]

/-- All returned values stand at the same places inside and outside the level. -/
theorem Widened.exists_positions {ret ret' : List Name}
    (hnodup : (widened.map (·.outside.param.name)).Nodup)
    (hret : List.Forall₂ (fun n n' => ∃ w,
      widened.find? (·.inside.param.name = n) = some w ∧ w.outside.param.name = n') ret ret') :
    ∃ ps : List Nat, ps.length = ret.length ∧ (∀ p ∈ ps, p < widened.length) ∧
      (ret.mapM fun n => (widened.map (·.inside.param.name)).findIdx? (· = n)) = some ps ∧
      (ret'.mapM fun n => (widened.map (·.outside.param.name)).findIdx? (· = n)) = some ps := by
  simp only [mapM_eq_some_iff]
  induction hret with
  | nil => exact ⟨[], rfl, by simp, .nil, .nil⟩
  | cons hw _ ih =>
    obtain ⟨w, hw, rfl⟩ := hw
    obtain ⟨p, hp, hinside, houtside⟩ := Widened.exists_position hnodup hw
    obtain ⟨ps, hlen, hps, hinsides, houtsides⟩ := ih
    refine ⟨p :: ps, by simp [hlen], ?_, .cons hinside hinsides, .cons houtside houtsides⟩
    intro q hq
    rcases List.mem_cons.1 hq with rfl | hq
    · exact hp
    · exact hps q hq

/-- The copies of an array are newer than the array. -/
theorem Level.Hands.plain {i : RowInput} {h : Handed} (hh : level.Hands i h)
    (htag : ∀ n ∈ Stm.patternNames h.copies, i.array.tag < n.tag) : ∀ s ∈ h.copies, s.Plain := by
  intro s hs
  cases hh with
  | same => cases hs
  | copy hty =>
    rw [List.mem_singleton.1 hs]
    exact .copy (htag _ (List.mem_singleton_self _))

/-- A copy has the value of the array that it is a copy of. -/
theorem Level.Hands.value_array {i : RowInput} {h : Handed} (hh : level.Hands i h)
    (hholds : ∀ s ∈ h.copies, s.Holds inner ρ) : ρ h.input.array = ρ i.array := by
  cases hh with
  | same => rfl
  | @copy c hty =>
    have h : some [ρ i.array] = some [ρ c.name] := hholds _ (List.mem_singleton_self _)
    simpa using h.symm

/-- The copies run, and the arrays handed to the map have the values of the arrays of the level. -/
theorem Level.exists_run_copies {inputs : List RowInput} {handed : List Handed} (inner : Runner)
    (σ : Env) {a b : Nat} (hhanded : List.Forall₂ level.Hands inputs handed)
    (hcopied : Drawn a b (handed.flatMap fun h => Stm.patternNames h.copies))
    (htags : ∀ r ∈ inputs, r.array.tag < a) :
    ∃ τ, Stm.runAll inner (handed.flatMap (·.copies)) σ = some τ ∧
      (∀ n, n.tag < a → τ n = σ n) ∧
      handed.map (fun h => τ h.input.array) = inputs.map fun r => σ r.array := by
  have hnames : Stm.patternNames (handed.flatMap (·.copies))
      = handed.flatMap fun h => Stm.patternNames h.copies := by
    simp only [Stm.patternNames, List.flatMap_assoc]
  have hplain : ∀ s ∈ handed.flatMap (·.copies), s.Plain := by
    intro s hs
    obtain ⟨h, hmem, hs⟩ := List.mem_flatMap.1 hs
    obtain ⟨i, hi, hh⟩ := exists_of_mem_right hhanded hmem
    refine hh.plain (fun n hn => ?_) s hs
    have := htags i hi
    have := hcopied.2 n (List.mem_flatMap.2 ⟨h, hmem, hn⟩)
    omega
  rw [← hnames] at hcopied
  obtain ⟨τ, hτ, hframe, hholds⟩ := Stm.exists_runAll_plain inner σ hplain hcopied
  have hold : ∀ n, n.tag < a → τ n = σ n := by
    intro n hn
    exact hframe n (hcopied.not_mem_of_lt hn)
  refine ⟨τ, hτ, hold, ?_⟩
  refine (map_eq_map_of_forall₂ hhanded fun i hi h hmem hh => ?_).symm
  rw [hh.value_array fun s hs => hholds s (List.mem_flatMap.2 ⟨h, hmem, hs⟩),
    hold _ (htags i hi)]

/-- The values of a pattern's operands are those of its names. -/
theorem Pattern.map_eval_operands {p : Pattern} :
    (Pattern.operands p).map (Operand.eval ρ) = (Pattern.names p).map ρ := by
  simp [Pattern.operands, Pattern.names, Operand.eval]

/-- What is bound by a statement and yielded at once is what its expression gives. -/
theorem Stm.run_yield {s : Stm} (hnodup : (Pattern.names s.pattern).Nodup)
    (hlen : ∀ vs, s.exp.run inner ρ = some vs → vs.length = s.pattern.length) :
    (Stm.runAll inner [s] ρ).map (fun σ => (Pattern.operands s.pattern).map (Operand.eval σ))
      = s.exp.run inner ρ := by
  rw [Stm.runAll, Stm.run]
  cases hrun : s.exp.run inner ρ with
  | none => rfl
  | some vs =>
    refine congrArg some (Pattern.map_eval_operands.trans (Env.map_bindAll hnodup ?_))
    rw [hlen vs hrun]
    exact List.length_map ..

/-- Inside the map, the body finds what it finds in the loop inside the level, the carried values
apart. Here `τ` holds outside the map, in an iteration of the loop. -/
theorem Level.Crossable.agree (hc : level.Crossable l.loop lo) {index : Name} {τ : Env}
    {i k : Nat} (hindex : index ∈ Pattern.names l.loop.form.binders)
    (hold : ∀ n, n.tag < lo → n ≠ index → τ n = ρ n) (hτ : τ index = .ofIndex k) {n : Name}
    (hn : n ∈ l.loop.body.free) :
    ((τ.bind level.index (.ofIndex i)).bindAll
        ((level.inputs.filter (·.param.name ∈ l.loop.reads)).map (·.param.name))
        ((level.inputs.filter (·.param.name ∈ l.loop.reads)).map fun r => (ρ r.array).row i)) n
      = ((level.enter i ρ).bind index (.ofIndex k)) n := by
  -- A name is a parameter of the level, its index, the index of the loop, or known outside.
  obtain ⟨hlevel, hparams⟩ := List.nodup_cons.1 hc.nodup
  obtain ⟨b, hb, rfl⟩ := Pattern.mem_names.1 hindex
  have hout : b.name ∉ level.bound := (hc.index b hb).1
  have hsub : ∀ r ∈ level.inputs.filter (·.param.name ∈ l.loop.reads), r ∈ level.inputs :=
    fun r hr => (List.mem_filter.1 hr).1
  by_cases hparam : ∃ r ∈ level.inputs, r.param.name = n
  · -- The body reads the parameter, so its array is handed to the map.
    obtain ⟨r, hr, rfl⟩ := hparam
    have hread : r ∈ level.inputs.filter (·.param.name ∈ l.loop.reads) := by
      refine List.mem_filter.2 ⟨hr, ?_⟩
      simpa [Loop.reads] using Or.inl hn
    have hne : r.param.name ≠ b.name := by
      intro heq
      exact hout (heq ▸ Level.mem_bound.2 (Or.inr ⟨r, hr, rfl⟩))
    rw [Env.bind_of_ne hne, Level.enter_param hparams hr]
    refine Env.bindAll_map (f := fun r : RowInput => r.param.name) ?_ hread
    rw [Pattern.names, Level.params, List.map_map] at hparams
    exact hparams.sublist (List.filter_sublist.map _)
  · have hnot : n ∉ (level.inputs.filter (·.param.name ∈ l.loop.reads)).map (·.param.name) := by
      intro hmem
      obtain ⟨r, hr, hname⟩ := List.mem_map.1 hmem
      exact hparam ⟨r, hsub r hr, hname⟩
    rw [Env.bindAll_of_not_mem hnot]
    by_cases hown : n = level.index
    · have hne : n ≠ b.name := by
        rintro rfl
        exact hout (hown ▸ Level.mem_bound.2 (Or.inl rfl))
      rw [hown] at hne ⊢
      rw [Env.bind_self, Env.bind_of_ne hne, Level.enter_index hlevel]
    · have hfree : n ∉ level.bound := by
        rw [Level.mem_bound, not_or]
        exact ⟨hown, hparam⟩
      rw [Env.bind_of_ne hown]
      by_cases hne : n = b.name
      · rw [hne, hτ, Env.bind_self]
      · rw [Env.bind_of_ne hne, Level.enter_of_not_mem_bound hfree,
          hold n (hc.tag_reads (Or.inl hn)) hne]

/-- The parameters of the map are those that the body reads, and the carried values. -/
theorem LoopStm.names_mapInputs {handed : List Handed}
    (hwidened : List.Forall₂ level.Widens l.loop.merge widened)
    (hhanded : List.Forall₂ level.Hands
      (level.inputs.filter (·.param.name ∈ l.loop.reads)) handed) :
    Pattern.names ((mapInputs widened handed).map (·.param))
      = (level.inputs.filter (·.param.name ∈ l.loop.reads)).map (·.param.name) ++
        l.loop.names := by
  have hparams : handed.map (·.input.param.name)
      = (level.inputs.filter (·.param.name ∈ l.loop.reads)).map (·.param.name) :=
    (map_eq_map_of_forall₂ hhanded fun i _ h _ hh => by rw [hh.param_eq]).symm
  rw [← hparams, ← Level.names_inside hwidened]
  simp [mapInputs, Pattern.names, Function.comp_def]

/-- The arrays that the map reads are those handed to it, and then the carried values outside. -/
theorem LoopStm.map_arrays_mapInputs {handed : List Handed} {τ : Env} :
    ((mapInputs widened handed).map (·.array)).map τ
      = handed.map (fun h => τ h.input.array) ++ (widened.map (·.outside.param.name)).map τ := by
  simp [mapInputs, Function.comp_def]

/-- An iteration of the map runs the body of the loop as it runs inside the level, on a row of the
carried values. Here `τ` holds outside the map, in an iteration of the loop. -/
theorem LoopStm.run_mapFunction {index : Name} {handed : List Handed}
    {rows : List (List Value)} {τ : Env} {i k : Nat} (hc : level.Crossable l.loop lo)
    (hinner : inner.Respects l.loop.body) (hindex : index ∈ Pattern.names l.loop.form.binders)
    (hwidened : List.Forall₂ level.Widens l.loop.merge widened)
    (hhanded : List.Forall₂ level.Hands
      (level.inputs.filter (·.param.name ∈ l.loop.reads)) handed)
    (hold : ∀ n, n.tag < lo → n ≠ index → τ n = ρ n) (hτ : τ index = .ofIndex k)
    (hi : i < rows.length) :
    inner l.loop.body ((l.mapFunction level widened handed).enter i
        (((level.inputs.filter (·.param.name ∈ l.loop.reads)).map fun r => ρ r.array) ++
          columns widened.length rows) τ)
      = inner l.loop.body (l.loop.enter index k (rows.getD i default) (level.enter i ρ)) := by
  have hlen : widened.length = l.loop.names.length := by
    rw [← Level.names_inside hwidened, List.length_map]
  refine hinner _ _ fun n hn => ?_
  show (τ.bind level.index (.ofIndex i)).bindAll
    (Pattern.names ((mapInputs widened handed).map (·.param))) (List.map (Value.row · i) _) n = _
  rw [names_mapInputs hwidened hhanded, List.map_append, List.map_map, row_columns hi,
    Env.bindAll_append (by simp), hlen, Env.bindAll_range, Loop.enter]
  exact Env.bindAll_congr fun _ => hc.agree hindex hold hτ hn

/-- The map runs the body of the loop in each iteration of the level, on the rows of the carried
values. Here `τ` holds outside the map, in an iteration of the loop. -/
theorem LoopStm.run_mapStm {index : Name} {handed : List Handed} (results : List Binder)
    {rows : List (List Value)} {τ : Env} {k : Nat} (hc : level.Crossable l.loop lo)
    (hinner : inner.Respects l.loop.body) (hindex : index ∈ Pattern.names l.loop.form.binders)
    (hwidened : List.Forall₂ level.Widens l.loop.merge widened)
    (hhanded : List.Forall₂ level.Hands
      (level.inputs.filter (·.param.name ∈ l.loop.reads)) handed)
    (hsized : ∀ r ∈ level.inputs, (ρ r.array).hasRows (level.width.eval ρ).count)
    (hrows : rows.length = (level.width.eval ρ).count)
    (hold : ∀ n, n.tag < lo → n ≠ index → τ n = ρ n) (hτ : τ index = .ofIndex k)
    (harrays : handed.map (fun h => τ h.input.array)
      = (level.inputs.filter (·.param.name ∈ l.loop.reads)).map fun r => ρ r.array)
    (hstate : (widened.map (·.outside.param.name)).map τ = columns widened.length rows) :
    (l.mapStm level widened handed results).exp.run inner τ
      = ((List.range (level.width.eval ρ).count).mapM fun i => inner l.loop.body
          (l.loop.enter index k (rows.getD i default) (level.enter i ρ))).map
        (columns widened.length) := by
  obtain ⟨b, hb, rfl⟩ := Pattern.mem_names.1 hindex
  have hwidth : level.width.eval τ = level.width.eval ρ := by
    refine Operand.eval_congr fun n hn => hold n (hc.tag_width hn) ?_
    rintro rfl
    exact (hc.index b hb).2.2 hn
  -- Arrays of the level and columns of the carried values have as many rows as the level is wide.
  have hall : (((level.inputs.filter (·.param.name ∈ l.loop.reads)).map fun r => ρ r.array) ++
      columns widened.length rows).all (Value.hasRows (level.width.eval ρ).count) = true := by
    rw [List.all_eq_true]
    intro v hv
    rcases List.mem_append.1 hv with hv | hv
    · obtain ⟨r, hr, rfl⟩ := List.mem_map.1 hv
      exact hsized r (List.mem_filter.1 hr).1
    · rw [← hrows]
      exact hasRows_of_mem_columns hv
  show (l.mapFunction level widened handed).run inner (level.width.eval τ).count
    (((mapInputs widened handed).map (·.array)).map τ) τ = _
  rw [hwidth, map_arrays_mapInputs, harrays, hstate, Lambda.run, if_pos hall]
  show Option.map (columns (widened.map (·.inside.param.ty)).length) _ = _
  rw [List.length_map]
  congr 1
  exact mapM_range_congr fun i hi =>
    run_mapFunction hc hinner hindex hwidened hhanded hold hτ (hrows ▸ hi)

/-- One iteration of the loop outside the level, which carries the columns of some values inside,
does an iteration of the loop inside for each iteration of the level. -/
theorem LoopStm.run_body {index : Name} {handed : List Handed} {results : List Binder}
    {a b : Nat} (k : Nat) (rows : List (List Value)) (hc : level.Crossable l.loop lo)
    (hinner : inner.Respects l.loop.body) (hindex : index ∈ Pattern.names l.loop.form.binders)
    (hwidened : List.Forall₂ level.Widens l.loop.merge widened)
    (hexpanded : Drawn lo a (widened.map (·.outside.param.name)))
    (hhanded : List.Forall₂ level.Hands
      (level.inputs.filter (·.param.name ∈ l.loop.reads)) handed)
    (hcopied : Drawn a b (handed.flatMap fun h => Stm.patternNames h.copies))
    (hresults : results.length = widened.length) (hdrawn : Drawn b hi (Pattern.names results))
    (hle : lo ≤ a)
    (hsized : ∀ r ∈ level.inputs, (ρ r.array).hasRows (level.width.eval ρ).count)
    (hrows : rows.length = (level.width.eval ρ).count) :
    (Body.ofStms (handed.flatMap (·.copies) ++ [l.mapStm level widened handed results])
        (Pattern.operands results)).run inner
      ((ρ.bind index (.ofIndex k)).bindAll (widened.map (·.outside.param.name))
        (columns widened.length rows))
      = ((List.range (level.width.eval ρ).count).mapM fun i => inner l.loop.body
          (l.loop.enter index k (rows.getD i default) (level.enter i ρ))).map
        (columns widened.length) := by
  generalize hσ : (ρ.bind index (.ofIndex k)).bindAll (widened.map (·.outside.param.name))
    (columns widened.length rows) = σ
  -- The loop outside binds its index and new names, and the copies have newer names still.
  obtain ⟨τ, hτ, hframe, harrays⟩ := Level.exists_run_copies inner σ hhanded
    hcopied fun r hr => Nat.lt_of_lt_of_le (hc.tag_array (List.mem_filter.1 hr).1) hle
  have hindexTag : index.tag < lo := hc.tags_loop index (Or.inr (Or.inr hindex))
  have hold : ∀ n, n.tag < lo → n ≠ index → σ n = ρ n := by
    intro n hn hne
    rw [← hσ, Env.bindAll_of_not_mem (hexpanded.not_mem_of_lt hn), Env.bind_of_ne hne]
  have hσindex : σ index = .ofIndex k := by
    rw [← hσ, Env.bindAll_of_not_mem (hexpanded.not_mem_of_lt hindexTag), Env.bind_self]
  have hstate : (widened.map (·.outside.param.name)).map τ = columns widened.length rows := by
    rw [List.map_congr_left fun n hn => hframe n (hexpanded.2 n hn).2, ← hσ]
    exact Env.map_bindAll hexpanded.nodup (by simp)
  have hrun := LoopStm.run_mapStm results (τ := τ) (k := k) hc hinner hindex hwidened
    hhanded hsized hrows
    (fun n hn hne => by rw [hframe n (by omega), hold n hn hne])
    (by rw [hframe index (by omega), hσindex])
    (by
      rw [harrays]
      refine List.map_congr_left fun r hr => ?_
      obtain ⟨b, hb, rfl⟩ := Pattern.mem_names.1 hindex
      have hr' := (List.mem_filter.1 hr).1
      refine hold r.array (hc.tag_array hr') ?_
      intro heq
      exact (hc.index b hb).2.1 (heq ▸ List.mem_map_of_mem hr'))
    hstate
  -- The body yields what the map binds, which is what the map gives.
  rw [Body.run_ofStms, Stm.runAll_append, hτ, Option.bind_some, ← hrun]
  refine Stm.run_yield (s := l.mapStm level widened handed results) hdrawn.nodup fun vs hvs => ?_
  rw [hrun] at hvs
  obtain ⟨rows', -, rfl⟩ := Option.map_eq_some_iff.1 hvs
  rw [length_columns, ← hresults]
  rfl

/-- Inside a level, a loop runs by itself in each iteration. The number of iterations of the loop is
known outside the level. -/
theorem Loop.run_enter {l : Loop} {index : Name} {bound : Operand} {ps : List Nat} {i : Nat}
    (hform : l.form = .forBelow index bound) (hbound : ∀ n, bound = .var n → n ∉ level.bound)
    (hpositions : l.positions? = some ps) :
    l.run inner (level.enter i ρ)
      = (iterate (fun k s => inner l.body (l.enter index k s (level.enter i ρ)))
          (bound.eval ρ).count (l.merge.map fun m => m.init.eval (level.enter i ρ))).map
        fun last => ps.map (last.getD · default) := by
  have heval : bound.eval (level.enter i ρ) = bound.eval ρ :=
    Operand.eval_congr fun n hn => Level.enter_of_not_mem_bound (hbound n hn)
  rw [Loop.run_forBelow hform, hpositions, Option.bind_some, heval]

/-- The loop outside a level computes the columns of what the loop inside computes in the iterations
of the level. -/
theorem LoopStm.Crosses.run_loop {out : Interchanged} {outer : Runner}
    (h : LoopStm.Crosses level l lo hi out) (hc : level.Crossable l.loop lo)
    (hinner : inner.Respects l.loop.body) (hρ : ∀ s ∈ out.prelude, s.Holds outer ρ)
    (hsized : ∀ r ∈ level.inputs, (ρ r.array).hasRows (level.width.eval ρ).count) :
    out.loop.loop.run (fun b => b.run inner) ρ
      = ((List.range (level.width.eval ρ).count).mapM fun i =>
          l.loop.run inner (level.enter i ρ)).map (columns l.loop.ret.length) := by
  cases h with
  | @intro index bound widened handed results ret a b hform hbound hwidened hexpanded hhanded
      hcopied hresults hdrawn hret hlen hle =>
    have hexpanded' : Drawn lo a (widened.map (·.outside.param.name)) :=
      hexpanded.sublist Widened.sublist_outside
    have hindex : index ∈ Pattern.names l.loop.form.binders := by
      simp [hform, LoopForm.binders]
    obtain ⟨ps, hps, hlt, hinside, houtside⟩ := Widened.exists_positions hexpanded'.nodup hret
    rw [Level.names_inside hwidened] at hinside
    -- The loop outside carries other names, in the same places.
    have hnames : (l.outside level widened handed results ret).loop.names
        = widened.map (·.outside.param.name) := List.map_map ..
    have hpositions : (l.outside level widened handed results ret).loop.positions? = some ps := by
      rw [Loop.positions?, hnames, ← houtside]
      rfl
    have hinits := Level.map_inits hc.nodup hc.inits hwidened hρ hsized
    generalize hrows : ((List.range (level.width.eval ρ).count).map fun i =>
      l.loop.merge.map fun m => m.init.eval (level.enter i ρ)) = inits at hinits
    have hinside' : ∀ i < (level.width.eval ρ).count, l.loop.run inner (level.enter i ρ)
        = (iterate (fun k s => inner l.loop.body (l.loop.enter index k s (level.enter i ρ)))
            (bound.eval ρ).count (inits.getD i default)).map
          fun last => ps.map (last.getD · default) := by
      intro i hi
      rw [Loop.run_enter hform hbound hinside, ← hrows]
      simp [hi]
    -- Iterating the step on the columns is iterating it on each row.
    have hcount : inits.length = (level.width.eval ρ).count := by simp [← hrows]
    have hiterate := iterate_columns (m := widened.length) hcount
      (g := fun i k s => inner l.loop.body (l.loop.enter index k s (level.enter i ρ)))
      (f := fun k s => (l.outside level widened handed results ret).loop.body.run inner
        ((l.outside level widened handed results ret).loop.enter index k s ρ))
      (fun k rows hlen => by
        rw [Loop.enter, hnames]
        exact LoopStm.run_body k rows hc hinner hindex hwidened hexpanded' hhanded hcopied
          hresults.length_eq.symm hdrawn hle.1 hsized hlen)
      (bound.eval ρ).count
    rw [Loop.run_forBelow (l := (l.outside level widened handed results ret).loop) hform,
      hpositions, Option.bind_some]
    show Option.map _ (iterate _ _ ((widened.map (·.outside)).map fun m => m.init.eval ρ)) = _
    rw [hinits, hiterate, mapM_range_congr hinside', mapM_range_map, Option.map_map,
      Option.map_map]
    congr 1
    funext rows
    exact (map_getD_columns hlt).trans (by rw [hps]; rfl)

end Step

/-! ### Crossing all levels -/

/-- An initial value can be followed outward through some levels, the innermost first: it is a
parameter, and its array can be followed further, or it is bound by none of the levels left. -/
def Operand.Followed : List Level → Operand → Prop
  | [], _ => True
  | level :: outer, v =>
    (∃ i, v.name?.bind level.input? = some i ∧ Followed outer (.var i.array)) ∨
      ∀ n, v = .var n → ∀ l ∈ level :: outer, n ∉ l.bound

/-- An initial value that no level binds is followed at once. -/
theorem Operand.followed_of_not_mem_bound {outer : List Level} {v : Operand}
    (h : ∀ n, v = .var n → ∀ l ∈ outer, n ∉ l.bound) : v.Followed outer := by
  cases outer with
  | nil => trivial
  | cons level outer => exact Or.inr h

/-- A loop stands inside the levels of a nest: names are bound once, the widths are known outside
the nest, and the names from a tag on are unused. -/
structure LoopStm.Inside (l : LoopStm) (levels : List Level) (next : Nat) : Prop where
  /-- A level binds no name twice. -/
  nodup : ∀ level ∈ levels, (level.index :: Pattern.names level.params).Nodup
  /-- The index of the loop is bound nowhere else. -/
  index : ∀ level ∈ levels, ∀ b ∈ l.loop.form.binders,
    b.name ∉ level.bound ∧ b.name ∉ level.arrays ∧ level.width ≠ .var b.name
  /-- The widths are known outside the nest. -/
  widths : ∀ level ∈ levels, ∀ n, level.width = .var n → ∀ l ∈ levels, n ∉ l.bound
  /-- What the levels bind and mention has an earlier tag. -/
  tags_levels : ∀ level ∈ levels, ∀ n, n ∈ level.bound ∨ n ∈ level.free → n.tag < next
  /-- What the loop binds and mentions has an earlier tag. -/
  tags_loop : ∀ n, n ∈ l.loop.free ∨ n ∈ l.loop.names ∨ n ∈ Pattern.names l.loop.form.binders →
    n.tag < next

/-- What is kept up while a loop leaves a nest. The levels still around it are given from the
innermost outward. -/
structure LoopStm.Leaves (l : LoopStm) (outer : List Level) (lo hi : Nat) (out : Interchanged) :
    Prop where
  le : lo ≤ hi
  form : out.loop.loop.form = l.loop.form
  length_ret : out.loop.loop.ret.length = l.loop.ret.length
  /-- What the loop binds and mentions has an earlier tag. -/
  tags : ∀ n, n ∈ out.loop.loop.free ∨ n ∈ out.loop.loop.names ∨
    n ∈ Pattern.names out.loop.loop.form.binders → n.tag < hi
  /-- The initial values can be followed further. -/
  inits : ∀ m ∈ out.loop.loop.merge, m.init.Followed outer
  /-- The replications are new, and in order. -/
  drawn : Drawn lo hi (Stm.patternNames out.prelude)
  plain : ∀ s ∈ out.prelude, s.Plain
  /-- What the replications mention is known outside the levels left. -/
  known : ∀ s ∈ out.prelude, ∀ n ∈ s.exp.free, ∀ level ∈ outer, n ∉ level.bound

namespace LoopStm

variable {l : LoopStm} {level : Level} {outer levels : List Level} {lo mid hi : Nat}
  {inner out : Interchanged}

/-- A loop that has left the levels inside may cross the next one. -/
theorem Leaves.crossable (h : l.Leaves (level :: outer) lo mid inner) (hin : l.Inside levels lo)
    (hlevel : level ∈ levels) : level.Crossable inner.loop.loop mid where
  nodup := hin.nodup level hlevel
  index := by
    rw [h.form]
    exact hin.index level hlevel
  inits m hm := by
    rcases h.inits m hm with ⟨i, hi, -⟩ | hout
    · exact Or.inl ⟨i, hi⟩
    · exact Or.inr fun n hn => hout n hn level (List.mem_cons_self ..)
  tags_level n hn := Nat.lt_of_lt_of_le (hin.tags_levels level hlevel n hn) h.le
  tags_loop := h.tags

/-- The initial value outside a level can be followed further, if the one inside can be followed
past the level. -/
theorem followed_of_widens {m : Merge} {w : Widened} (hw : level.Widens m w)
    (hinit : m.init.Followed (level :: outer))
    (hnew : ∀ n ∈ Stm.patternNames w.replicates, ∀ l ∈ outer, n ∉ l.bound) :
    w.outside.init.Followed outer := by
  cases hw with
  | @reuse array i hi hty =>
    -- The initial value outside is the array of the parameter, which can be followed further.
    rcases hinit with ⟨j, hj, hfollowed⟩ | hout
    · rw [hi] at hj
      cases hj
      exact hfollowed
    · -- The initial value is a parameter of the level after all.
      obtain ⟨n, hn, hi⟩ := Option.bind_eq_some_iff.1 hi
      obtain ⟨himem, hname⟩ := Level.input?_eq_some hi
      exact absurd (Level.mem_bound.2 (Or.inr ⟨i, himem, hname⟩))
        (hout n (Operand.name?_eq_some_iff.1 hn) level (List.mem_cons_self ..))
  | @replicate array start hi hty hstart =>
    refine Operand.followed_of_not_mem_bound fun n hn l hl => ?_
    cases hn
    exact hnew _ (List.mem_singleton_self _) l hl

/-- A replication for a level mentions nothing that the levels further out bind. -/
theorem not_mem_bound_of_widens {m : Merge} {w : Widened} (hw : level.Widens m w)
    (hinit : m.init.Followed (level :: outer))
    (hwidth : ∀ n, level.width = .var n → ∀ l ∈ outer, n ∉ l.bound) {s : Stm}
    (hs : s ∈ w.replicates) {n : Name} (hn : n ∈ s.exp.free) {l : Level} (hl : l ∈ outer) :
    n ∉ l.bound := by
  cases hw with
  | reuse _ _ => cases hs
  | @replicate array start hi hty hstart =>
    rw [List.mem_singleton.1 hs] at hn
    have hn : n ∈ Operand.names [level.width, m.init] := NameSet.mem_ofList.1 hn
    rw [Operand.mem_names, List.mem_cons, List.mem_singleton] at hn
    -- A replication mentions the width, and an initial value that is no parameter of the level.
    rcases hn with hn | hn
    · exact hwidth n hn.symm l hl
    · rcases hinit with ⟨i, hi', -⟩ | hout
      · rw [hi] at hi'
        cases hi'
      · exact hout n hn.symm l (List.mem_cons_of_mem _ hl)

/-- What is replicated for a level is older than the array it goes into. -/
theorem plain_of_widens {m : Merge} {w : Widened} (hw : level.Widens m w)
    (hwidth : ∀ n, level.width = .var n → n.tag < lo) (hinit : ∀ n, m.init = .var n → n.tag < lo)
    {s : Stm} (hs : s ∈ w.replicates) (hdrawn : ∀ n ∈ Pattern.names s.pattern, lo ≤ n.tag) :
    s.Plain := by
  cases hw with
  | reuse _ _ => cases hs
  | @replicate array start hi hty hstart =>
    rw [List.mem_singleton.1 hs] at hdrawn ⊢
    have hlo := hdrawn start.name (List.mem_singleton_self _)
    refine .replicate (fun n hn => ?_) fun n hn => ?_
    · exact Nat.lt_of_lt_of_le (hwidth n hn) hlo
    · exact Nat.lt_of_lt_of_le (hinit n hn) hlo

namespace Crosses

/-- What a loop outside a level binds and mentions is new, or it was there before. -/
theorem tag_lt (h : Crosses level l mid hi out) (hc : level.Crossable l.loop mid) {n : Name}
    (hn : n ∈ out.loop.loop.free ∨ n ∈ out.loop.loop.names ∨
      n ∈ Pattern.names out.loop.loop.form.binders) : n.tag < hi := by
  have hle := h.le
  rcases hn with hfree | hname | hindex
  · rcases h.mem_free hfree with hmention | ⟨hinside, -⟩ | ⟨m, hm, hdim⟩ | hreplicated
    · have := hc.tag_mention hmention
      omega
    · have := hc.tags_loop n (Or.inl hinside)
      omega
    · have := hc.tag_reads (Or.inr (Pattern.mem_dimNames.2 ⟨m.param, List.mem_map_of_mem hm, hdim⟩))
      omega
    · exact (h.drawn_prelude.2 n hreplicated).2
  · exact (h.drawn_names.2 n hname).2
  · rw [h.form_eq] at hindex
    have := hc.tags_loop n (Or.inr (Or.inr hindex))
    omega

/-- The initial values outside the level can be followed further. -/
theorem followed (h : Crosses level l mid hi out)
    (hinits : ∀ m ∈ l.loop.merge, m.init.Followed (level :: outer))
    (hnew : ∀ n ∈ Stm.patternNames out.prelude, ∀ l ∈ outer, n ∉ l.bound) :
    ∀ m ∈ out.loop.loop.merge, m.init.Followed outer := by
  obtain ⟨widened, hwidened, hmerge, hprelude⟩ := h.exists_widened
  intro m' hm'
  rw [hmerge] at hm'
  obtain ⟨w, hw, rfl⟩ := List.mem_map.1 hm'
  obtain ⟨m, hm, hwiden⟩ := exists_of_mem_right hwidened hw
  refine followed_of_widens hwiden (hinits m hm) fun n hn => hnew n ?_
  obtain ⟨s, hs, hn⟩ := Stm.mem_patternNames.1 hn
  rw [hprelude]
  exact Stm.mem_patternNames.2 ⟨s, List.mem_flatMap.2 ⟨w, hw, hs⟩, hn⟩

/-- The replications in front of the loop are newer than what they mention. -/
theorem plain (h : Crosses level l mid hi out) (hc : level.Crossable l.loop mid) :
    ∀ s ∈ out.prelude, s.Plain := by
  intro s hs
  obtain ⟨m, hm, w, hwiden, hs'⟩ := h.exists_of_mem_prelude hs
  refine plain_of_widens hwiden (fun n hn => hc.tag_width hn) (fun n hn => hc.tag_init hm hn) hs'
    fun n hn => ?_
  exact (h.drawn_prelude.2 n (Stm.mem_patternNames.2 ⟨s, hs, Pattern.mem_names.1 hn⟩)).1

/-- The replications mention nothing that the levels further out bind. -/
theorem known (h : Crosses level l mid hi out)
    (hinits : ∀ m ∈ l.loop.merge, m.init.Followed (level :: outer))
    (hwidth : ∀ n, level.width = .var n → ∀ l ∈ outer, n ∉ l.bound) :
    ∀ s ∈ out.prelude, ∀ n ∈ s.exp.free, ∀ l ∈ outer, n ∉ l.bound := by
  intro s hs n hn l' hl'
  obtain ⟨m, hm, w, hwiden, hs'⟩ := h.exists_of_mem_prelude hs
  exact not_mem_bound_of_widens hwiden (hinits m hm) hwidth hs' hn hl'

end Crosses

/-- A loop that leaves one more level. -/
theorem Crosses.leaves (h : Crosses level inner.loop mid hi out)
    (hleaves : l.Leaves (level :: outer) lo mid inner) (hin : l.Inside levels lo)
    (hlevel : level ∈ levels) (houter : ∀ l ∈ outer, l ∈ levels) :
    l.Leaves outer lo hi ⟨inner.prelude ++ out.prelude, out.loop⟩ := by
  have hc := hleaves.crossable hin hlevel
  have hlo := hleaves.le
  have hhi := h.le
  -- The levels further out do not bind a name drawn now.
  have hnew : ∀ n ∈ Stm.patternNames out.prelude, ∀ l' ∈ outer, n ∉ l'.bound := by
    intro n hn l' hl hmem
    have := (h.drawn_prelude.2 n hn).1
    have := hin.tags_levels l' (houter l' hl) n (Or.inl hmem)
    omega
  refine ⟨by omega, h.form_eq.trans hleaves.form, h.length_ret.trans hleaves.length_ret,
    fun n hn => h.tag_lt hc hn, h.followed hleaves.inits hnew, ?_, ?_, ?_⟩
  · rw [Stm.patternNames, List.flatMap_append]
    exact hleaves.drawn.append h.drawn_prelude hlo hhi
  · intro s hs
    rcases List.mem_append.1 hs with hs | hs
    · exact hleaves.plain s hs
    · exact h.plain hc s hs
  · intro s hs n hn l' hl'
    rcases List.mem_append.1 hs with hs | hs
    · exact hleaves.known s hs n hn l' (List.mem_cons_of_mem _ hl')
    · exact h.known hleaves.inits
        (fun n hn l hl => hin.widths level hlevel n hn l (houter l hl)) s hs n hn l' hl'

/-- The body of the loop outside depends on its free names only, if the body inside does. -/
theorem Crosses.respects {r : Runner} (h : Crosses level l lo hi out)
    (hr : r.Respects l.loop.body) :
    Runner.Respects (fun b => b.run r) out.loop.loop.body := by
  cases h with
  | @intro index bound widened handed results ret a b _ _ _ _ hhanded _ _ _ _ _ _ =>
    intro ρ σ hagree
    refine Body.run_congr (fun s hs => ?_) hagree
    -- The body consists of copies, which have no bodies inside, and of the map.
    have hs : s ∈ (Body.ofStms _ _).stms := hs
    rw [Body.stms_ofStms, List.mem_append] at hs
    rcases hs with hs | hs
    · obtain ⟨h, hmem, hs⟩ := List.mem_flatMap.1 hs
      obtain ⟨i, hi, hh⟩ := exists_of_mem_right hhanded hmem
      cases hh with
      | same => cases hs
      | copy _ =>
        rw [List.mem_singleton.1 hs]
        trivial
    · rw [List.mem_singleton.1 hs]
      exact hr

end LoopStm

/-! ### What moving a loop computes -/

/-- At every point of some levels, each array of a level has exactly one row for each of its
iterations. -/
def Sized : List Level → Env → Prop
  | [], _ => True
  | level :: rest, ρ =>
    (∀ r ∈ level.inputs, (ρ r.array).hasRows (level.width.eval ρ).count) ∧
      ∀ i < (level.width.eval ρ).count, Sized rest (level.enter i ρ)

/-- Runs a loop by itself at every point of some levels, and collects what it returns row by row.
The body of the loop is run in the given way. -/
def LoopStm.collect (inner : Runner) (l : LoopStm) : List Level → Env → Option (List Value)
  | [], ρ => l.loop.run inner ρ
  | level :: rest, ρ =>
    ((List.range (level.width.eval ρ).count).mapM fun i =>
      collect inner l rest (level.enter i ρ)).map (columns l.loop.ret.length)

/-- A loop that returns values it carries knows their places. -/
theorem Loop.exists_positions {l : Loop} (h : ∀ n ∈ l.ret, n ∈ l.names) :
    ∃ ps, l.positions? = some ps ∧ ps.length = l.ret.length := by
  refine exists_mapM_eq_some fun n hn => ?_
  rw [← Option.isSome_iff_exists, List.findIdx?_isSome, List.any_eq_true]
  exact ⟨n, h n hn, by simp⟩

/-- A replication or a copy that holds still does where what it mentions and binds is the same. It
has no body, so the runner does not matter. -/
theorem Stm.Plain.holds_congr {s : Stm} {r : Runner} {ρ σ : Env} (hs : s.Plain)
    (h : ∀ n, n ∈ s.exp.free ∨ n ∈ Pattern.names s.pattern → ρ n = σ n) (hholds : s.Holds r ρ) :
    s.Holds r σ := by
  have hexp : s.exp.run r ρ = s.exp.run r σ := by
    refine Exp.run_congr ?_ fun n hn => h n (Or.inl hn)
    cases hs <;> trivial
  have hnames : (Pattern.names s.pattern).map ρ = (Pattern.names s.pattern).map σ :=
    List.map_congr_left fun n hn => h n (Or.inr hn)
  rw [Stm.Holds, ← hexp, ← hnames]
  exact hholds

namespace LoopStm

variable {l : LoopStm} {level : Level} {outer levels all : List Level} {lo hi : Nat}
  {out : Interchanged} {inner : Runner}

/-- A loop that has left no level yet. -/
theorem Inside.leaves (hin : l.Inside all lo)
    (hinits : ∀ m ∈ l.loop.merge, m.init.Followed outer) : l.Leaves outer lo lo ⟨[], l⟩ where
  le := Nat.le_refl _
  form := rfl
  length_ret := rfl
  tags := hin.tags_loop
  inits := hinits
  drawn := Drawn.nil
  plain := by simp
  known := by simp

/-- A loop that has left some levels computes what is collected over them, wherever its
replications hold. -/
theorem CrossesAll.run_loop (h : CrossesAll l levels lo hi out)
    (hinner : inner.Respects l.loop.body) :
    l.Inside all lo → (∀ level ∈ levels, level ∈ all) → ∀ outer, (∀ level ∈ outer, level ∈ all) →
    (∀ m ∈ l.loop.merge, m.init.Followed (levels.reverse ++ outer)) →
    l.Leaves outer lo hi out ∧ Runner.Respects (Body.runAt inner levels.length) out.loop.loop.body ∧
      ∀ (ρ : Env) (r : Runner), (∀ s ∈ out.prelude, s.Holds r ρ) → Sized levels ρ →
        out.loop.loop.run (Body.runAt inner levels.length) ρ = l.collect inner levels ρ := by
  -- The levels crossed so far are the inner ones. What holds of the loop then is `Leaves`, and the
  -- next level is crossed in every iteration of it at once.
  induction h with
  | nil =>
    intro hin _ outer _ hinits
    refine ⟨hin.leaves hinits, hinner, ?_⟩
    intro ρ r _ _
    rfl
  | @cons level rest left out lo mid hi _ houter ih =>
    intro hin hlevels outer houterAll hinits
    have hlevel := hlevels level (List.mem_cons_self ..)
    rw [List.reverse_cons, List.append_assoc] at hinits
    obtain ⟨hleaves, hrespects, hrun⟩ := ih hin
      (fun l' hl' => hlevels l' (List.mem_cons_of_mem _ hl')) (level :: outer)
      (by
        intro l' hl'
        rcases List.mem_cons.1 hl' with rfl | hl'
        · exact hlevel
        · exact houterAll l' hl')
      hinits
    refine ⟨houter.leaves hleaves hin hlevel houterAll, houter.respects hrespects, ?_⟩
    intro ρ r hholds hsized
    show out.loop.loop.run (fun b => b.run (Body.runAt inner rest.length)) ρ = _
    rw [houter.run_loop (hleaves.crossable hin hlevel) hrespects
      (fun s hs => hholds s (List.mem_append_right _ hs)) hsized.1, hleaves.length_ret, collect]
    congr 1
    refine mapM_range_congr fun i hi => hrun _ r (fun s hs => ?_) (hsized.2 i hi)
    -- Entering the level changes nothing for the replications of the levels further inside.
    refine (hleaves.plain s hs).holds_congr (fun n hn => ?_)
      (hholds s (List.mem_append_left _ hs))
    refine (Level.enter_of_not_mem_bound ?_).symm
    rcases hn with hn | hn
    · exact hleaves.known s hs n hn level (List.mem_cons_self ..)
    · intro hbound
      have := hin.tags_levels level hlevel n (Or.inl hbound)
      have := (hleaves.drawn.2 n (List.mem_flatMap.2 ⟨s, hs, hn⟩)).1
      omega

/-! New names change nothing for the levels and the loop as they were. -/

/-- Environments that agree on old names do so after a level with old arrays is entered. -/
theorem enter_agree {ρ σ : Env} {c i : Nat} (htags : ∀ r ∈ level.inputs, r.array.tag < c)
    (h : ∀ n, n.tag < c → ρ n = σ n) : ∀ n, n.tag < c → level.enter i ρ n = level.enter i σ n := by
  intro n hn
  have hrows : (level.inputs.map fun r => (ρ r.array).row i)
      = level.inputs.map fun r => (σ r.array).row i :=
    List.map_congr_left fun r hr => by rw [h r.array (htags r hr)]
  rw [Level.enter, Level.enter, hrows]
  refine Env.bindAll_congr fun _ => ?_
  by_cases hindex : n = level.index
  · rw [hindex, Env.bind_self, Env.bind_self]
  · rw [Env.bind_of_ne hindex, Env.bind_of_ne hindex, h n hn]

/-- What a level mentions is older than what the attempt draws. -/
theorem Inside.tag_mention (hin : l.Inside all lo) (hlevel : level ∈ all) {n : Name}
    (hn : level.Mentions n) : n.tag < lo :=
  hin.tags_levels level hlevel n hn.mem_bound_or_free

/-- An array of a level is older than what the attempt draws. -/
theorem Inside.tag_array (hin : l.Inside all lo) (hlevel : level ∈ all) {r : RowInput}
    (hr : r ∈ level.inputs) : r.array.tag < lo :=
  hin.tag_mention hlevel (Level.mentions_array hr)

/-- The width of a level depends on old names only. -/
theorem Inside.eval_width (hin : l.Inside all lo) (hlevel : level ∈ all) {ρ σ : Env}
    (h : ∀ n, n.tag < lo → ρ n = σ n) : level.width.eval ρ = level.width.eval σ :=
  Operand.eval_congr fun n hn => h n (hin.tag_mention hlevel (Or.inl hn))

/-- Whether the arrays have as many rows as they should depends on old names only. -/
theorem Inside.sized_congr (hin : l.Inside all lo) {ρ σ : Env}
    (hlevels : ∀ level ∈ levels, level ∈ all) (h : ∀ n, n.tag < lo → ρ n = σ n)
    (hsized : Sized levels ρ) : Sized levels σ := by
  -- Entering a level on both sides keeps them the same on old names.
  induction levels generalizing ρ σ with
  | nil => trivial
  | cons level rest ih =>
    have hlevel := hlevels level (List.mem_cons_self ..)
    rw [Sized, hin.eval_width hlevel h] at hsized
    refine ⟨fun r hr => ?_, fun i hi => ?_⟩
    · rw [← h r.array (hin.tag_array hlevel hr)]
      exact hsized.1 r hr
    · exact ih (fun l' hl' => hlevels l' (List.mem_cons_of_mem _ hl'))
        (enter_agree (fun r hr => hin.tag_array hlevel hr) h) (hsized.2 i hi)

/-- What is collected over the levels depends on old names only. -/
theorem Inside.collect_congr (hin : l.Inside all lo) {ρ σ : Env}
    (hinner : inner.Respects l.loop.body)
    (hlevels : ∀ level ∈ levels, level ∈ all) (h : ∀ n, n.tag < lo → ρ n = σ n) :
    l.collect inner levels ρ = l.collect inner levels σ := by
  induction levels generalizing ρ σ with
  | nil => exact Loop.run_congr hinner fun n hn => h n (hin.tags_loop n (Or.inl hn))
  | cons level rest ih =>
    have hlevel := hlevels level (List.mem_cons_self ..)
    rw [collect, collect, hin.eval_width hlevel h]
    congr 1
    exact mapM_range_congr fun i _ => ih (fun l' hl' => hlevels l' (List.mem_cons_of_mem _ hl'))
      (enter_agree (fun r hr => hin.tag_array hlevel hr) h)

/-- A counting loop that returns values it carries, and whose body always gives something, has
something to collect. -/
theorem exists_collect {F : Env → List Value} {index : Name} {bound : Operand} {ρ : Env}
    (hbody : ∀ ρ, inner l.loop.body ρ = some (F ρ))
    (hform : l.loop.form = .forBelow index bound) (hret : ∀ n ∈ l.loop.ret, n ∈ l.loop.names) :
    ∃ vs, l.collect inner levels ρ = some vs ∧ vs.length = l.loop.ret.length := by
  induction levels generalizing ρ with
  | nil =>
    obtain ⟨ps, hps, hlen⟩ := Loop.exists_positions hret
    obtain ⟨last, hlast⟩ := exists_iterate (fun k s => F (l.loop.enter index k s ρ))
      (bound.eval ρ).count (l.loop.merge.map fun m => m.init.eval ρ)
    refine ⟨ps.map (last.getD · default), ?_, by rw [List.length_map, hlen]⟩
    rw [collect, Loop.run_forBelow hform, hps, Option.bind_some]
    simp only [hbody, hlast, Option.map_some]
  | cons level rest ih =>
    -- Every iteration of the level has something to collect, so there is a row for each.
    choose f hf hlen using fun i => ih (ρ := level.enter i ρ)
    refine ⟨columns l.loop.ret.length ((List.range (level.width.eval ρ).count).map f), ?_,
      length_columns⟩
    rw [collect, mapM_range_eq_some_map fun i _ => hf i]
    rfl

/-- Moving a loop out of a nest keeps its meaning. The statements run, whatever function of its free
names the body of the loop gives, and bind the arrays of the outermost level to what the loop
returns at the points of the nest. The runner is only known on the body of the loop itself, so it is
this body that stands inside the maps of the nest. -/
theorem run_interchangeAll {copyConsumed : Bool} {nest : KernelNest} {st st' : Attempt}
    {stms : List Stm} {index : Name} {bound : Operand} {F : Env → List Value} {ρ : Env}
    (h : l.interchangeAll copyConsumed nest st = .ok stms st')
    (hin : l.Inside nest.toList st.supply.next)
    (hform : l.loop.form = .forBelow index bound)
    (hret : ∀ n ∈ l.loop.ret, n ∈ l.loop.names)
    (hinits : ∀ m ∈ l.loop.merge, m.init.Followed nest.toList.reverse)
    (hbody : ∀ ρ, inner l.loop.body ρ = some (F ρ))
    (hF : ∀ ρ σ : Env, (∀ n ∈ l.loop.body.free, ρ n = σ n) → F ρ = F σ)
    (hsized : Sized nest.toList ρ) :
    ∃ (results : List Value) (σ : Env), l.collect inner nest.toList ρ = some results ∧
      results.length = nest.outermost.pattern.length ∧
      (∀ n, n.tag < st.supply.next → σ n = ρ n) ∧
      Stm.runAll (Body.runAt inner nest.depth) stms ρ
        = some (σ.bindAll (Pattern.names nest.outermost.pattern) results) := by
  obtain ⟨out, hcrosses, rfl⟩ := crossesAll_of_interchangeAll_eq_ok h
  have hinner : inner.Respects l.loop.body := by
    intro ρ σ hagree
    rw [hbody, hbody, hF ρ σ hagree]
  -- The replications run first, and disturb nothing that the loop reads.
  obtain ⟨hleaves, -, hrun⟩ := hcrosses.run_loop hinner hin (fun _ hl => hl) [] (by simp)
    (by simpa using hinits)
  obtain ⟨results, hresults, hlen⟩ : ∃ vs, l.collect inner nest.toList ρ = some vs ∧
      vs.length = l.loop.ret.length := exists_collect hbody hform hret
  obtain ⟨σ, hσ, hframe, hholds⟩ :=
    Stm.exists_runAll_plain (Body.runAt inner nest.depth) ρ hleaves.plain hleaves.drawn
  have hagree : ∀ n, n.tag < st.supply.next → σ n = ρ n := fun n hn =>
    hframe n (hleaves.drawn.not_mem_of_lt hn)
  obtain ⟨rest, hnest⟩ := nest.exists_toList_eq_cons
  have hpattern := (hnest ▸ hcrosses).pattern
  refine ⟨results, σ, hresults, ?_, hagree, ?_⟩
  · rw [hlen, ← hleaves.length_ret, hpattern.2]
  have hloop : out.loop.loop.run (Body.runAt inner nest.depth) σ = some results := by
    rw [← Stack.length_toList, hrun σ _ hholds
      (hin.sized_congr (fun _ hl => hl) (fun n hn => (hagree n hn).symm) hsized),
      hin.collect_congr hinner (fun _ hl => hl) hagree, hresults]
  rw [Stm.runAll_append, hσ, Option.bind_some, Stm.runAll, Stm.run]
  show ((out.loop.loop.run (Body.runAt inner nest.depth) σ).map _).bind _ = _
  rw [hloop, ← hpattern.1]
  rfl

end LoopStm

/-! A loop inside two maps that swaps its carried values three times. The first starts with a row of
a row of `xs`, which is reused, and the second with zero, which is replicated:

    map i < 2 (x <- xs):
      map j < 2 (z <- x):
        loop (a = z, b = 0) for k < 3:
          yield (b, a)
-/

namespace Swaps

/-- The maps. -/
def nest : KernelNest :=
  ⟨[⟨[⟨⟨"as", 10⟩, .array .i32 [.ofInt32 2, .ofInt32 2] false⟩,
      ⟨⟨"bs", 11⟩, .array .i32 [.ofInt32 2, .ofInt32 2] false⟩], [], .ofInt32 2, ⟨"i", 1⟩,
      [⟨⟨⟨"x", 2⟩, .array .i32 [.ofInt32 2] false⟩, ⟨"xs", 0⟩⟩]⟩],
    ⟨[⟨⟨"as", 8⟩, .array .i32 [.ofInt32 2] false⟩, ⟨⟨"bs", 9⟩, .array .i32 [.ofInt32 2] false⟩], [],
      .ofInt32 2, ⟨"j", 3⟩, [⟨⟨⟨"z", 4⟩, .scalar .i32⟩, ⟨"x", 2⟩⟩]⟩⟩

/-- The loop. -/
def loop : LoopStm :=
  ⟨[⟨⟨"a", 12⟩, .scalar .i32⟩, ⟨⟨"b", 13⟩, .scalar .i32⟩],
    ⟨[⟨"a", 5⟩, ⟨"b", 6⟩],
      [⟨⟨⟨"a", 5⟩, .scalar .i32⟩, .var ⟨"z", 4⟩⟩, ⟨⟨⟨"b", 6⟩, .scalar .i32⟩, .ofInt32 0⟩],
      .forBelow ⟨"k", 7⟩ (.ofInt32 3), .yield [.var ⟨"b", 6⟩, .var ⟨"a", 5⟩]⟩⟩

/-- Runs bodies that hold no loops and no maps. -/
def runner : Runner := fun b ρ => b.run (fun _ _ => none) ρ

/-- What the body of the loop computes. -/
def swap (ρ : Env) : List Value := [ρ ⟨"b", 6⟩, ρ ⟨"a", 5⟩]

/-- A matrix, under the name `xs`. -/
def env : Env := fun n =>
  if n = ⟨"xs", 0⟩ then .array [.array [.ofIndex 7, .ofIndex 8], .array [.ofIndex 9, .ofIndex 10]]
  else default

/-- The loop stands inside the maps, and the tags from 14 on are unused. -/
theorem inside : loop.Inside nest.toList 14 where
  nodup := by decide
  index := by decide
  widths := by
    intro level hl n hn
    rcases List.mem_cons.1 hl with rfl | hl
    · cases hn
    · rw [List.mem_singleton.1 hl] at hn
      cases hn
  tags_levels := by
    have h : ∀ level ∈ nest.toList, (∀ n ∈ level.bound.toList, n.tag < 14) ∧
        ∀ n ∈ level.free.toList, n.tag < 14 := by decide
    rintro level hl n (hn | hn)
    · exact (h level hl).1 n hn
    · exact (h level hl).2 n hn
  tags_loop := by
    have h : (∀ n ∈ loop.loop.free.toList, n.tag < 14) ∧ (∀ n ∈ loop.loop.names, n.tag < 14) ∧
        ∀ n ∈ Pattern.names loop.loop.form.binders, n.tag < 14 := by decide
    rintro n (hn | hn | hn)
    · exact h.1 n hn
    · exact h.2.1 n hn
    · exact h.2.2 n hn

/-- One initial value is a row of a row, the other a constant. -/
theorem followed : ∀ m ∈ loop.loop.merge, m.init.Followed nest.toList.reverse := by
  intro m hm
  rcases List.mem_cons.1 hm with rfl | hm
  · exact Or.inl ⟨_, rfl, Or.inl ⟨_, rfl, trivial⟩⟩
  · rw [List.mem_singleton.1 hm]
    refine Or.inr fun n hn => ?_
    cases hn

/-- The matrix has two rows of two numbers. -/
theorem sized : Sized nest.toList env := by
  refine ⟨by decide, fun i hi => ⟨?_, fun j _ => trivial⟩⟩
  match i, hi with
  | 0, _ => decide
  | 1, _ => decide

end Swaps

/-- After three swaps, the first result holds zeros, and the second the matrix. -/
theorem LoopStm.run_interchangeAll_swaps :
    Swaps.loop.Inside Swaps.nest.toList 14 ∧ Sized Swaps.nest.toList Swaps.env ∧
    (∀ m ∈ Swaps.loop.loop.merge, m.init.Followed Swaps.nest.toList.reverse) ∧
    ∃ stms st', Swaps.loop.interchangeAll true Swaps.nest { supply := ⟨14⟩ } = .ok stms st' ∧
      ∃ σ : Env, (∀ n, n.tag < 14 → σ n = Swaps.env n) ∧
        Stm.runAll (Body.runAt Swaps.runner 2) stms Swaps.env
          = some (σ.bindAll [⟨"as", 10⟩, ⟨"bs", 11⟩]
              [.array [.array [.ofIndex 0, .ofIndex 0], .array [.ofIndex 0, .ofIndex 0]],
                Swaps.env ⟨"xs", 0⟩]) := by
  have hmoves : passes (fun _ => true)
      (Swaps.loop.interchangeAll true Swaps.nest { supply := ⟨14⟩ }) = true := by decide +kernel
  obtain ⟨stms, st', h, -⟩ := exists_of_passes hmoves
  obtain ⟨results, σ, hcollect, -, hagree, hrun⟩ := LoopStm.run_interchangeAll h Swaps.inside rfl
    (by decide) Swaps.followed (show ∀ ρ, Swaps.runner _ ρ = some (Swaps.swap ρ) from fun ρ => rfl)
    (fun ρ σ h => by
      rw [Swaps.swap, Swaps.swap, h ⟨"b", 6⟩ (by decide), h ⟨"a", 5⟩ (by decide)]) Swaps.sized
  cases hcollect
  exact ⟨Swaps.inside, Swaps.sized, Swaps.followed, stms, st', h, σ, hagree, hrun⟩

end MapNest
