import MapNest.Nest.Build
import MapNest.Proofs.Attempt

/-!
# `MapNest.Proofs.Nest.Close`: what closing a level does

`Frame.close` makes one map of a nest into a level of the kernel. `Frame.close_eq_ok` takes a
successful run apart: the level is `Frame.closed` for some captures, the target of the map left
behind is extended by what the captures add, and the level is regular. `capture_mapM` says what a
capture is: its parameter has the name asked for, and its array is the one that carries the name
already or a new one, which the map left behind then returns (`Capture.Drawn`).

The rest describes the closed level through membership: what it binds (`Frame.mem_bound_closed`),
where its parameters come from (`Frame.mem_inputs_closed`), and that what is demanded further
inside and bound by the map's body is bound by the level (`Frame.mem_bound_closed_of_demand`).
-/

set_option autoImplicit false

namespace MapNest

/-- No parameter and no array of a level has a type that mentions a name of a set. -/
def Level.Regular (bound : NameSet) (l : Level) : Prop :=
  ∀ b ∈ l.params ++ l.pattern, ∀ n, .var n ∈ b.ty.dims → n ∉ bound

/-! ### Captures -/

/-- Where the array of a capture comes from: it carries the name already, or it was drawn with a
tag between two bounds and is returned by the map left behind. -/
inductive Capture.Drawn (width : Operand) (carrier? : Name → Option Binder) (lo hi : Nat)
    (c : Capture) : Prop where
  /-- The array carries the value already. -/
  | carried (b : Binder) (hcarrier : carrier? c.input.param.name = some b)
      (harray : c.input.array = b.name) (hadded : c.added = [])
  /-- The array is new. -/
  | fresh (hlo : lo ≤ c.input.array.tag) (hhi : c.input.array.tag < hi)
      (hadded : c.added =
        [⟨⟨c.input.array, c.input.param.ty.arrayOf width⟩, .var c.input.param.name⟩])

/-- The bounds on the tags may be moved apart. -/
theorem Capture.Drawn.mono {width : Operand} {carrier? : Name → Option Binder} {lo hi lo' hi' : Nat}
    {c : Capture} (h : c.Drawn width carrier? lo hi) (hlo : lo' ≤ lo) (hhi : hi ≤ hi') :
    c.Drawn width carrier? lo' hi' := by
  cases h with
  | carried b hcarrier harray hadded => exact .carried b hcarrier harray hadded
  | fresh h₁ h₂ hadded => exact .fresh (by omega) (by omega) hadded

/-- A value is handed in under its own name, through its carrier or a fresh array. -/
theorem capture_eq_ok {width : Operand} {carrier? : Name → Option Binder} {n : Name}
    {st st' : Attempt} {c : Capture} (h : capture width carrier? n st = .ok c st') :
    c.input.param.name = n ∧ c.Drawn width carrier? st.supply.next st'.supply.next ∧
      st.supply.next ≤ st'.supply.next := by
  unfold capture at h
  obtain ⟨ty, s₁, hty, hrest⟩ := bind_eq_ok_iff.1 h
  obtain ⟨-, rfl⟩ := AttemptM.typeOf_eq_ok_iff.1 hty
  cases hc : carrier? n with
  | some b =>
    rw [hc] at hrest
    obtain ⟨rfl, rfl⟩ := pure_eq_ok_iff.1 hrest
    exact ⟨rfl, .carried b hc rfl rfl, Nat.le_refl _⟩
  | none =>
    -- No array carries the value yet, so one is drawn for it.
    rw [hc] at hrest
    obtain ⟨array, s₂, harray, hpure⟩ := bind_eq_ok_iff.1 hrest
    obtain ⟨-, rfl, rfl⟩ := AttemptM.freshBinder_eq_ok_iff.1 harray
    obtain ⟨rfl, rfl⟩ := pure_eq_ok_iff.1 hpure
    refine ⟨rfl, .fresh ?_ ?_ rfl, ?_⟩
    · exact Nat.le_refl _
    · exact Nat.lt_succ_self _
    · exact Nat.le_succ _

/-- The values are handed in in the order in which they were asked for. -/
theorem capture_mapM {width : Operand} {carrier? : Name → Option Binder} {names : List Name}
    {st st' : Attempt} {cs : List Capture}
    (h : (names.mapM (capture width carrier?)) st = .ok cs st') :
    cs.map (·.input.param.name) = names ∧
      (∀ c ∈ cs, c.Drawn width carrier? st.supply.next st'.supply.next) ∧
      st.supply.next ≤ st'.supply.next := by
  obtain ⟨hall, hle⟩ := mapM_between
    (R := fun lo hi n c => c.input.param.name = n ∧ c.Drawn width carrier? lo hi)
    (by
      rintro lo lo' hi hi' n c ⟨hn, hdrawn⟩ hlo hhi
      exact ⟨hn, hdrawn.mono hlo hhi⟩)
    (fun n c s s' hc => by
      obtain ⟨hn, hdrawn, hle⟩ := capture_eq_ok hc
      exact ⟨⟨hn, hdrawn⟩, hle⟩) h
  refine ⟨?_, fun c hc => ?_, hle⟩
  · have hnames := map_eq_map_of_forall₂ (f := id) (g := fun c : Capture => c.input.param.name) hall
      fun n _ c _ hc => hc.1.symm
    rw [← hnames, List.map_id]
  · obtain ⟨n, -, -, hdrawn⟩ := exists_of_mem_right hall hc
    exact hdrawn

/-- What a capture adds to a target is a new array. -/
theorem Capture.Drawn.names_added {width : Operand} {carrier? : Name → Option Binder} {lo hi : Nat}
    {c : Capture} (h : c.Drawn width carrier? lo hi) :
    MapNest.Drawn lo hi (Pattern.names (Target.pattern c.added)) := by
  cases h with
  | carried b _ _ hadded =>
    rw [hadded]
    exact .nil
  | fresh hlo hhi hadded =>
    rw [hadded]
    exact .singleton hlo hhi

/-- What is added returns the captured value. -/
theorem Capture.Drawn.value_of_mem_added {width : Operand} {carrier? : Name → Option Binder}
    {lo hi : Nat} {c : Capture} (h : c.Drawn width carrier? lo hi) {o : Output}
    (ho : o ∈ c.added) : o.value = .var c.input.param.name := by
  cases h with
  | carried b _ _ hadded =>
    rw [hadded] at ho
    cases ho
  | fresh _ _ hadded =>
    rw [hadded] at ho
    rw [List.mem_singleton.1 ho]

/-- The arrays added for the values have fresh names, in order. -/
theorem capture_mapM_drawn {width : Operand} {carrier? : Name → Option Binder} {names : List Name}
    {st st' : Attempt} {cs : List Capture}
    (h : (names.mapM (capture width carrier?)) st = .ok cs st') :
    Drawn st.supply.next st'.supply.next
      (Pattern.names (Target.pattern (cs.flatMap (·.added)))) := by
  obtain ⟨-, hdrawn, -⟩ := mapM_drawn (R := fun _ _ => True)
    (d := fun c => Pattern.names (Target.pattern c.added))
    (fun n c s s' hc => by
      obtain ⟨-, hdrawn, hle⟩ := capture_eq_ok hc
      exact ⟨trivial, hdrawn.names_added, hle⟩) h
  simpa [Pattern.names, Target.pattern, List.map_flatMap] using hdrawn

/-- A scope gives a captured name the type of the parameter, unless the name is newer than a tag;
and it gives the arrays that the capture adds their types. -/
structure Capture.Typed (scope : Scope) (lo : Nat) (c : Capture) : Prop where
  param : c.input.param.name.tag < lo →
    scope.lookup? c.input.param.name = some c.input.param.ty
  added : ∀ o ∈ c.added, scope.lookup? o.binder.name = some o.binder.ty

/-- A value that is handed in has the type that it has in scope, which lasts. -/
theorem capture_typed {width : Operand} {carrier? : Name → Option Binder} {n : Name}
    {st st' : Attempt} {c : Capture} (h : capture width carrier? n st = .ok c st') :
    st.Later st' ∧ ∀ {final : Attempt}, st'.Later final →
      c.Typed final.scope st.supply.next := by
  unfold capture at h
  obtain ⟨ty, s₁, hty, hrest⟩ := bind_eq_ok_iff.1 h
  obtain ⟨hlookup, rfl⟩ := AttemptM.typeOf_eq_ok_iff.1 hty
  cases hc : carrier? n with
  | some b =>
    rw [hc] at hrest
    obtain ⟨rfl, rfl⟩ := pure_eq_ok_iff.1 hrest
    exact ⟨.refl, fun hfinal => ⟨fun hn => (hfinal.types n hn).trans hlookup, by simp⟩⟩
  | none =>
    rw [hc] at hrest
    obtain ⟨array, s₂, harray, hpure⟩ := bind_eq_ok_iff.1 hrest
    obtain ⟨hlater, htag, hdeclared⟩ := Attempt.Later.freshBinder harray
    obtain ⟨rfl, rfl⟩ := pure_eq_ok_iff.1 hpure
    refine ⟨hlater, fun hfinal => ⟨fun hn => ?_, fun o ho => ?_⟩⟩
    · exact ((hlater.trans hfinal).types n hn).trans hlookup
    · rw [List.mem_singleton.1 ho]
      exact (hfinal.types _ htag).trans hdeclared

/-- All values that are handed in have the types that they have in scope. -/
theorem capture_mapM_typed {width : Operand} {carrier? : Name → Option Binder} {names : List Name}
    {st st' : Attempt} {cs : List Capture}
    (h : (names.mapM (capture width carrier?)) st = .ok cs st') :
    st.Later st' ∧ ∀ {final : Attempt}, st'.Later final →
      ∀ c ∈ cs, c.Typed final.scope st.supply.next := by
  refine mapM_induction (fun s _ cs s' => s.Later s' ∧ ∀ {final : Attempt}, s'.Later final →
    ∀ c ∈ cs, c.Typed final.scope s.supply.next) ?_ ?_ h
  · intro s
    exact ⟨.refl, by simp⟩
  · intro n _ c cs s s₁ s' hc ⟨hlater', hrest⟩
    obtain ⟨hlater, htyped⟩ := capture_typed hc
    refine ⟨hlater.trans hlater', fun hfinal c' hc' => ?_⟩
    rcases List.mem_cons.1 hc' with rfl | hc'
    · exact htyped (hlater'.trans hfinal)
    · have hc' := hrest hfinal c' hc'
      exact ⟨fun hn => hc'.param (Nat.lt_of_lt_of_le hn hlater.next_le), hc'.added⟩

/-! ### The closed level -/

namespace Frame

variable {f : Frame} {bound : NameSet} {demand : Demand} {captures : List Capture} {n : Name}

/-- The names that a frame captures. -/
def captured (f : Frame) (demand : Demand) : List Name :=
  f.required (f.enclosing.level.restrict demand.free) demand

/-- The level that a frame becomes with some captures. -/
def closed (f : Frame) (demand : Demand) (captures : List Capture) : Level :=
  { f.enclosing.level with
    pattern := f.pattern
    inputs := ((f.enclosing.level.restrict demand.free).inputs ++ captures.map (·.input)).map
      (RowInput.demote demand.consumed) }

/-- A level is closed by handing in what is asked for, and only if it is regular then. -/
theorem close_eq_ok {st st' : Attempt} {level : Level} {target : Target}
    (h : f.close bound demand st = .ok (level, target) st') :
    ∃ captures,
      ((f.captured demand).mapM (capture f.enclosing.level.width f.carrier?)) st
        = .ok captures st' ∧
      level = f.closed demand captures ∧
      target = f.target ++ captures.flatMap (·.added) ∧
      level.Regular bound := by
  unfold close at h
  obtain ⟨captures, s₁, hcaptures, h⟩ := bind_eq_ok_iff.1 h
  refine ⟨captures, ?_⟩
  -- The check looks through the closed level as it is written out, so only `erw` finds it.
  cases hfind : ((f.closed demand captures).params ++ f.pattern).find?
      fun b => b.ty.dimNames.any (· ∈ bound) with
  | some b =>
    erw [hfind] at h
    exact absurd h AttemptM.refuse_ne_ok
  | none =>
    erw [hfind] at h
    obtain ⟨heq, rfl⟩ := pure_eq_ok_iff.1 h
    cases heq
    refine ⟨hcaptures, rfl, rfl, ?_⟩
    -- The check found no irregular array, so there is none.
    intro b hb n hn hbound
    have hnone := List.find?_eq_none.1 hfind b hb
    exact hnone (List.any_eq_true.2 ⟨n, Ty.mem_dimNames.2 hn, by simpa using hbound⟩)

/-- A closed level reads the rows that are still needed and those handed in, demoted where nothing
consumes them. -/
theorem mem_inputs_closed {r : RowInput} :
    r ∈ (f.closed demand captures).inputs ↔
      ∃ i, ((i ∈ f.enclosing.level.inputs ∧ i.param.name ∈ demand.free) ∨
        ∃ c ∈ captures, c.input = i) ∧ i.demote demand.consumed = r := by
  rw [closed, List.mem_map]
  simp only [Level.restrict, List.mem_append, List.mem_filter, List.mem_map, decide_eq_true_eq]

/-- A closed level binds its index, the parameters that are still needed and what is handed in. -/
theorem mem_bound_closed (hnames : captures.map (·.input.param.name) = f.captured demand) :
    n ∈ (f.closed demand captures).bound ↔
      n = f.enclosing.level.index ∨
      (n ∈ demand.free ∧ ∃ i ∈ f.enclosing.level.inputs, i.param.name = n) ∨
      n ∈ f.captured demand := by
  rw [Level.mem_bound, ← hnames]
  refine or_congr Iff.rfl ⟨?_, ?_⟩
  · rintro ⟨r, hr, rfl⟩
    obtain ⟨i, hi | ⟨c, hc, rfl⟩, rfl⟩ := mem_inputs_closed.1 hr
    · exact Or.inl ⟨by simpa using hi.2, i, hi.1, by simp⟩
    · exact Or.inr (List.mem_map.2 ⟨c, hc, by simp⟩)
  · rintro (⟨hn, i, hi, rfl⟩ | hn)
    · exact ⟨i.demote demand.consumed, mem_inputs_closed.2 ⟨i, Or.inl ⟨hi, hn⟩, rfl⟩, by simp⟩
    · obtain ⟨c, hc, rfl⟩ := List.mem_map.1 hn
      exact ⟨c.input.demote demand.consumed,
        mem_inputs_closed.2 ⟨c.input, Or.inr ⟨c, hc, rfl⟩, rfl⟩, by simp⟩

/-- A restricted level binds its index and the parameters that are used. -/
theorem mem_bound_restrict {l : Level} {used : NameSet} :
    n ∈ (l.restrict used).bound ↔
      n = l.index ∨ (n ∈ used ∧ ∃ i ∈ l.inputs, i.param.name = n) := by
  rw [Level.mem_bound]
  refine or_congr Iff.rfl ⟨?_, ?_⟩
  · rintro ⟨i, hi, rfl⟩
    obtain ⟨hi, hused⟩ := List.mem_filter.1 hi
    exact ⟨by simpa using hused, i, hi, rfl⟩
  · rintro ⟨hused, i, hi, rfl⟩
    exact ⟨i, List.mem_filter.2 ⟨hi, by simpa using hused⟩, rfl⟩

/-- A captured name is bound by the body of the frame's map, and not by the frame's level. -/
theorem of_mem_captured (h : n ∈ f.captured demand) :
    (n ∈ f.enclosing.letBound ∨ n ∈ f.below) ∧
      n ∉ (f.enclosing.level.restrict demand.free).bound ∧
      (n ∈ demand.free ∨ n ∈ (f.enclosing.level.restrict demand.free).free) := by
  simp only [captured, required, NameSet.mem_toList, NameSet.mem_filter,
    Demand.mem_around_free, decide_eq_true_eq] at h
  obtain ⟨hfree | ⟨hdemand, hnot⟩, hbody⟩ := h
  · exact ⟨hbody, (Level.mem_free.1 hfree).2, Or.inr hfree⟩
  · exact ⟨hbody, hnot, Or.inl hdemand⟩

/-- What is demanded further inside is bound by the closed level if the map's body or the map
itself binds it. -/
theorem mem_bound_closed_of_demand
    (hnames : captures.map (·.input.param.name) = f.captured demand) (hn : n ∈ demand.free)
    (hbound : n ∈ f.enclosing.bound ∨ n ∈ f.below) :
    n ∈ (f.closed demand captures).bound := by
  rw [mem_bound_closed hnames]
  by_cases hown : n ∈ (f.enclosing.level.restrict demand.free).bound
  · rcases mem_bound_restrict.1 hown with h | h
    · exact Or.inl h
    · exact Or.inr (Or.inl h)
  · -- The level itself does not bind the name, so the body of its map does.
    have hbody : n ∈ f.enclosing.letBound ∨ n ∈ f.below := by
      rcases hbound with h | h
      · rcases Enclosing.mem_bound.1 h with h | h
        · exact Or.inl h
        · refine absurd ?_ hown
          rcases Level.mem_bound.1 h with h | h
          · exact mem_bound_restrict.2 (Or.inl h)
          · exact mem_bound_restrict.2 (Or.inr ⟨hn, h⟩)
      · exact Or.inr h
    refine Or.inr (Or.inr ?_)
    simp only [captured, required, NameSet.mem_toList, NameSet.mem_filter,
      Demand.mem_around_free, decide_eq_true_eq]
    exact ⟨Or.inr ⟨hn, hown⟩, hbody⟩

/-- A closed level binds no name twice if its map does not. -/
theorem nodup_closed (hnames : captures.map (·.input.param.name) = f.captured demand)
    (hnodup : (f.enclosing.level.index :: Pattern.names f.enclosing.level.params).Nodup) :
    ((f.closed demand captures).index ::
      Pattern.names (f.closed demand captures).params).Nodup := by
  have heq : Pattern.names (f.closed demand captures).params
      = Pattern.names (f.enclosing.level.restrict demand.free).params ++ f.captured demand := by
    rw [← hnames]
    simp [Pattern.names, Level.params, closed, Function.comp_def]
  -- The parameters kept are the map's own, and what is captured is none of them.
  rw [heq, ← List.cons_append, List.nodup_append]
  refine ⟨?_, NameSet.nodup_toList _, ?_⟩
  · have hsub : (f.enclosing.level.restrict demand.free).inputs.Sublist
        f.enclosing.level.inputs := List.filter_sublist
    exact hnodup.sublist (((hsub.map _).map _).cons_cons _)
  · rintro a ha b hb rfl
    refine (of_mem_captured hb).2.1 ?_
    rw [Level.bound, NameSet.mem_ofList]
    exact ha

end Frame

end MapNest
