import MapNest.Proofs.Nest.Close
import MapNest.Proofs.Nest.Consistent
import MapNest.Proofs.Nest.Division

/-!
# `MapNest.Proofs.Nest.Arranges`: the steps of a run

`Selection.kernelNest` builds the innermost level and puts the others around it one by one.
`Arranges` is the derivation of such a run: one rule for the innermost level and one for a level put
around those built so far. It records all that a step does: how the outputs of the level are
divided, which new ones are drawn, and with which captures its frame is closed (`Frame.Closes`). The
tags of the names drawn lie between two bounds, and the captures are typed by the scope at the end.

`Selection.arranges_of_kernelNest_eq_ok` derives it from a successful run. No other module takes a
run apart.
-/

set_option autoImplicit false

namespace MapNest

/-! ### New outputs -/

/-- A new output stands for an array that no output takes, and has its rows. -/
def Taken.StandsFor (width : Operand) (x : Binder × Nat) (out : Taken) : Prop :=
  out.position = x.2 ∧ out.binder.ty = x.1.ty.arrayOf width

/-- A new output stands for the array that no output returns, under a fresh name. -/
theorem newOutput_eq_ok {width : Operand} {x : Binder × Nat} {st st' : Attempt} {out : Taken}
    (h : newOutput width x st = .ok out st') :
    out.StandsFor width x ∧ Drawn st.supply.next st'.supply.next [out.binder.name] ∧
      st.supply.next ≤ st'.supply.next := by
  unfold newOutput at h
  obtain ⟨b, hb, rfl⟩ := bind_pure_eq_ok_iff.1 h
  obtain ⟨-, rfl, rfl⟩ := AttemptM.freshBinder_eq_ok_iff.1 hb
  exact ⟨⟨rfl, rfl⟩, .singleton (Nat.le_refl _) (Nat.lt_succ_self _), Nat.le_succ _⟩

/-- Drawing a new output changes no type. -/
theorem newOutput_later {width : Operand} {x : Binder × Nat} {st st' : Attempt} {out : Taken}
    (h : newOutput width x st = .ok out st') : st.Later st' := by
  unfold newOutput at h
  obtain ⟨b, hb, rfl⟩ := bind_pure_eq_ok_iff.1 h
  exact (Attempt.Later.freshBinder hb).1

/-- There is a new output for each array that no output returns, in order. -/
theorem newOutput_mapM {width : Operand} {l : List (Binder × Nat)} {st st' : Attempt}
    {new : List Taken} (h : (l.mapM (newOutput width)) st = .ok new st') :
    List.Forall₂ (fun x out => out.StandsFor width x) l new ∧
      Drawn st.supply.next st'.supply.next (Pattern.names (new.map (·.binder))) ∧
      st.supply.next ≤ st'.supply.next := by
  obtain ⟨hall, hdrawn, hle⟩ := mapM_drawn (R := fun x out => out.StandsFor width x)
    (d := fun out => [out.binder.name]) (fun x out s s' hout => newOutput_eq_ok hout) h
  refine ⟨hall, ?_, hle⟩
  rw [Pattern.names, List.map_map, List.map_eq_flatMap]
  exact hdrawn

/-- The outputs of a level, taken and new, have every position of the level inside once. -/
theorem Division.Divides.perm_order {inner : Pattern} {t : Target} {d : Division}
    {new : List Taken} {width : Operand} (h : d.Divides inner t)
    (hnew : List.Forall₂ (fun x out => out.StandsFor width x) (d.untaken inner) new) :
    ((d.taken ++ new).map (·.position)).Perm (List.range inner.length) := by
  have hpositions : new.map (·.position) = (d.untaken inner).map (·.2) :=
    (map_eq_map_of_forall₂ hnew fun _ _ _ _ hout => hout.1.symm).symm
  rw [List.map_append, hpositions]
  exact h.perm_positions

/-- Taken over and new together, the outputs are as many as the arrays inside. -/
theorem Division.Divides.length_eq {inner : Pattern} {t : Target} {d : Division}
    {new : List Taken} {width : Operand} (h : d.Divides inner t)
    (hnew : List.Forall₂ (fun x out => out.StandsFor width x) (d.untaken inner) new) :
    (d.taken ++ new).length = inner.length := by
  simpa using (h.perm_order hnew).length_eq

/-! ### Closing a level -/

/-- A frame is closed with some captures, and the tags drawn run from one bound to below the
other. -/
structure Frame.Closes (f : Frame) (bound : NameSet) (demand : Demand) (captures : List Capture)
    (lo hi : Nat) : Prop where
  /-- All that has to be handed in is captured. -/
  names : captures.map (·.input.param.name) = f.captured demand
  /-- Each capture reads an array that carries its name. -/
  drawn : ∀ c ∈ captures, c.Drawn f.enclosing.level.width f.carrier? lo hi
  /-- The level passed the check for irregular arrays. -/
  regular : (f.closed demand captures).Regular bound
  le : lo ≤ hi

/-- The tags may count from an earlier one on. -/
theorem Frame.Closes.of_le {f : Frame} {bound : NameSet} {demand : Demand}
    {captures : List Capture} {lo lo' hi : Nat} (h : f.Closes bound demand captures lo hi)
    (hle : lo' ≤ lo) : f.Closes bound demand captures lo' hi where
  names := h.names
  drawn c hc := (h.drawn c hc).mono hle (Nat.le_refl _)
  regular := h.regular
  le := Nat.le_trans hle h.le

/-- What is handed in was asked for. -/
theorem Frame.Closes.mem_captured {f : Frame} {bound : NameSet} {demand : Demand}
    {captures : List Capture} {lo hi : Nat} (h : f.Closes bound demand captures lo hi)
    {c : Capture} (hc : c ∈ captures) : c.input.param.name ∈ f.captured demand := by
  rw [← h.names]
  exact List.mem_map_of_mem hc

/-- What the captures add to a target returns what is captured. -/
theorem Frame.Closes.mem_captured_of_mem_added {f : Frame} {bound : NameSet} {demand : Demand}
    {captures : List Capture} {lo hi : Nat} (h : f.Closes bound demand captures lo hi)
    {o : Output} (ho : o ∈ captures.flatMap (·.added)) {n : Name} (hvalue : o.value = .var n) :
    n ∈ f.captured demand := by
  obtain ⟨c, hc, ho⟩ := List.mem_flatMap.1 ho
  rw [(h.drawn c hc).value_of_mem_added ho] at hvalue
  cases hvalue
  exact h.mem_captured hc

/-- A closed level reads the arrays of its map, arrays that carry values already, and new ones. -/
theorem Frame.Closes.array_of_mem_inputs {f : Frame} {bound : NameSet} {demand : Demand}
    {captures : List Capture} {lo hi : Nat} (h : f.Closes bound demand captures lo hi)
    {r : RowInput} (hr : r ∈ (f.closed demand captures).inputs) :
    (∃ i ∈ f.enclosing.level.inputs, i.array = r.array) ∨
      (∃ n b, f.carrier? n = some b ∧ b.name = r.array) ∨
      (lo ≤ r.array.tag ∧ r.array.tag < hi) := by
  obtain ⟨i, ⟨hown, -⟩ | ⟨c, hc, rfl⟩, rfl⟩ := Frame.mem_inputs_closed.1 hr
  · exact Or.inl ⟨i, hown, RowInput.array_demote.symm⟩
  · rw [RowInput.array_demote]
    cases h.drawn c hc with
    | carried b hb harray _ => exact Or.inr (Or.inl ⟨_, b, hb, harray.symm⟩)
    | fresh hlo hhi _ => exact Or.inr (Or.inr ⟨hlo, hhi⟩)

/-- What a capture adds to a target is a new array. -/
theorem Frame.Closes.tag_of_mem_added {f : Frame} {bound : NameSet} {demand : Demand}
    {captures : List Capture} {lo hi : Nat} (h : f.Closes bound demand captures lo hi)
    {c : Capture} (hc : c ∈ captures) {o : Output} (ho : o ∈ c.added) :
    lo ≤ o.binder.name.tag ∧ o.binder.name.tag < hi :=
  (h.drawn c hc).names_added.2 _ (Target.mem_names_pattern.2 ⟨o, ho, rfl⟩)

/-- What closing a level comes to: the level, the target left behind, and what is handed in, with
its names and types. -/
theorem Frame.closes_of_close_eq_ok {f : Frame} {bound : NameSet} {demand : Demand}
    {st st' : Attempt} {level : Level} {target : Target}
    (h : f.close bound demand st = .ok (level, target) st') :
    st.Later st' ∧ ∃ captures, f.Closes bound demand captures st.supply.next st'.supply.next ∧
      Drawn st.supply.next st'.supply.next
        (Pattern.names (Target.pattern (captures.flatMap (·.added)))) ∧
      (∀ {final : Attempt}, st'.Later final →
        ∀ c ∈ captures, c.Typed final.scope st.supply.next) ∧
      level = f.closed demand captures ∧ target = f.target ++ captures.flatMap (·.added) := by
  obtain ⟨captures, hcaptures, hlevel, htarget, hregular⟩ := Frame.close_eq_ok h
  obtain ⟨hnames, hdrawn, hle⟩ := capture_mapM hcaptures
  obtain ⟨hlater, htyped⟩ := capture_mapM_typed hcaptures
  exact ⟨hlater, captures, ⟨hnames, hdrawn, hlevel ▸ hregular, hle⟩, capture_mapM_drawn hcaptures,
    htyped, hlevel, htarget⟩

/-! ### The derivation of a nest -/

/-- The frame of the innermost level. -/
def Selection.frame (s : Selection) (position : Nat) (e : Enclosing) : Frame where
  position
  enclosing := e
  pattern := Target.pattern s.targets.inner
  target := []
  below := ∅
  carrier? := s.carrier?

/-- The frame of a level around those built so far, with its outputs divided and the new ones. -/
def Built.frame (built : Built) (position : Nat) (e : Enclosing) (d : Division)
    (new : List Taken) : Frame where
  position
  enclosing := e
  pattern := (d.taken ++ new).map (·.binder)
  target := d.kept
  below := .ofList (Pattern.names (Target.pattern built.targets.outermost))
  carrier? := fun _ => none

/-- The levels built for some maps around one another, the outermost first, step by step. Tags were
drawn from the first bound to below the second. In the end names have the types of `scope`. -/
inductive Arranges (scope : Scope) (s : Selection) (bound : NameSet) :
    List (Enclosing × Target) → Nat → Nat → Built → Prop
  /-- The innermost level takes over what is selected, and keeps the outputs set aside. -/
  | innermost {position : Nat} {e : Enclosing} {t : Target} {captures : List Capture} {lo hi : Nat}
      (hrestore : (s.restore s.targets.inner).Perm t)
      (hcloses : (s.frame position e).Closes bound ⟨s.free ∩ bound, s.consumed ∩ bound⟩ captures
        lo hi)
      (hadded : Drawn lo hi (Pattern.names (Target.pattern (captures.flatMap (·.added)))))
      (htyped : ∀ c ∈ captures, c.Typed scope lo) :
      Arranges scope s bound [(e, t)] lo hi
        ⟨.single ((s.frame position e).closed ⟨s.free ∩ bound, s.consumed ∩ bound⟩ captures),
          .single (s.restore (captures.flatMap (·.added))),
          Demand.around ⟨s.free ∩ bound, s.consumed ∩ bound⟩
            ((s.frame position e).closed ⟨s.free ∩ bound, s.consumed ∩ bound⟩ captures)⟩
  /-- A level is put around those built so far. Its outputs are divided, and it gets new ones for
  the arrays that none of them takes. The levels inside list their arrays in the order that
  arises. -/
  | enclose {within : List (Enclosing × Target)} {position : Nat} {e : Enclosing} {t : Target}
      {built : Built} {d : Division} {new : List Taken} {captures : List Capture}
      {lo mid top hi : Nat}
      (hwithin : Arranges scope s bound within lo mid built)
      (hdivides : d.Divides built.nest.outermost.pattern t)
      (hnew : List.Forall₂ (fun x out => out.StandsFor e.level.width x)
        (d.untaken built.nest.outermost.pattern) new)
      (hdrawn : Drawn mid top (Pattern.names (new.map (·.binder))))
      (hle : mid ≤ top)
      (hcloses : (built.frame position e d new).Closes bound built.demand captures top hi)
      (hadded : Drawn top hi (Pattern.names (Target.pattern (captures.flatMap (·.added)))))
      (htyped : ∀ c ∈ captures, c.Typed scope top) :
      Arranges scope s bound ((e, t) :: within) lo hi
        ⟨(built.nest.map (Level.permute ((d.taken ++ new).map (·.position)))).pushOuter
            ((built.frame position e d new).closed built.demand captures),
          built.targets.pushOuter (d.kept ++ captures.flatMap (·.added)),
          built.demand.around ((built.frame position e d new).closed built.demand captures)⟩

/-- The innermost level is arranged. -/
theorem Selection.arranges_of_innermost_eq_ok {targets : Targets} {stms : List Stm}
    {bound : NameSet} {position : Nat} {e : Enclosing} {st st' : Attempt} {built : Built}
    (h : (Selection.ofStms targets stms).innermost bound position e st = .ok built st') :
    st.Later st' ∧ ∀ {final : Attempt}, st'.Later final →
      Arranges final.scope (Selection.ofStms targets stms) bound [(e, targets.inner)]
        st.supply.next st'.supply.next built := by
  unfold innermost at h
  obtain ⟨⟨level, target⟩, hclose, rfl⟩ := bind_pure_eq_ok_iff.1 h
  change (frame _ position e).close bound _ st = _ at hclose
  obtain ⟨hlater, captures, hcloses, hadded, htyped, rfl, rfl⟩ :=
    Frame.closes_of_close_eq_ok hclose
  exact ⟨hlater, fun hfinal =>
    .innermost perm_restore_ofStms hcloses hadded (htyped hfinal)⟩

/-- A level put around those that are arranged is arranged. -/
theorem Built.arranges_of_enclose_eq_ok {s : Selection} {bound : NameSet} {position : Nat}
    {e : Enclosing} {t : Target} {within : List (Enclosing × Target)} {built built' : Built}
    {st st' : Attempt} {lo : Nat}
    (hwithin : ∀ {final : Attempt}, st.Later final →
      Arranges final.scope s bound within lo st.supply.next built)
    (h : built.enclose bound position e t st = .ok built' st') :
    st.Later st' ∧ ∀ {final : Attempt}, st'.Later final →
      Arranges final.scope s bound ((e, t) :: within) lo st'.supply.next built' := by
  unfold enclose at h
  obtain ⟨new, s₁, hnew, hrest⟩ := bind_eq_ok_iff.1 h
  obtain ⟨⟨level, target⟩, hclose, rfl⟩ := bind_pure_eq_ok_iff.1 hrest
  change (built.frame position e (Division.ofTarget built.nest.outermost.pattern t) new).close bound
    built.demand s₁ = _ at hclose
  obtain ⟨hlater', captures, hcloses, hadded, htyped, rfl, rfl⟩ :=
    Frame.closes_of_close_eq_ok hclose
  obtain ⟨hall, hdrawn, hle⟩ := newOutput_mapM hnew
  have hlater := Attempt.Later.mapM (fun _ _ _ _ => newOutput_later) hnew
  refine ⟨hlater.trans hlater', fun hfinal => ?_⟩
  exact .enclose (hwithin (hlater.trans (hlater'.trans hfinal))) (Division.divides_ofTarget ..) hall
    hdrawn hle hcloses hadded (htyped hfinal)

/-- Levels put around those that are arranged are arranged, one by one. -/
theorem Built.arranges_of_encloseAll_eq_ok {s : Selection} {bound : NameSet}
    {levels within : List (Enclosing × Target)} {inner built : Built} {lo : Nat} {st : Attempt}
    (hinner : ∀ {final : Attempt}, st.Later final →
      Arranges final.scope s bound within lo st.supply.next inner) :
    ∀ {position : Nat} {st' : Attempt},
      inner.encloseAll bound position levels st = .ok built st' →
      st.Later st' ∧ ∀ {final : Attempt}, st'.Later final →
        Arranges final.scope s bound (levels ++ within) lo st'.supply.next built := by
  -- The levels are put around from the inside out: the head of the list comes last.
  induction levels generalizing built with
  | nil =>
    intro position st' h
    obtain ⟨rfl, rfl⟩ := pure_eq_ok_iff.1 h
    exact ⟨.refl, hinner⟩
  | cons x rest ih =>
    obtain ⟨e, t⟩ := x
    intro position st' h
    rw [encloseAll] at h
    obtain ⟨mid, s₁, hmid, henclose⟩ := bind_eq_ok_iff.1 h
    obtain ⟨hlater, hwithin⟩ := ih hmid
    obtain ⟨hlater', harranges⟩ := arranges_of_enclose_eq_ok hwithin henclose
    exact ⟨hlater.trans hlater', harranges⟩

/-- A nest is built only if there is a target for each map, and then all its levels are arranged. -/
theorem Selection.kernelNest_eq_ok {nesting : Nesting} {targets targets' : Targets}
    {stms : List Stm} {nest : KernelNest} {st st' : Attempt}
    (h : (Selection.ofStms targets stms).kernelNest nesting st = .ok (targets', nest) st') :
    nesting.depth = targets.depth ∧ st.Later st' ∧
      ∃ demand, Arranges st'.scope (Selection.ofStms targets stms) nesting.bound
        (nesting.levels targets) st.supply.next st'.supply.next ⟨nest, targets', demand⟩ := by
  unfold kernelNest at h
  split at h
  · rename_i hdepth
    obtain ⟨inner, s₁, hinner, hrest⟩ := bind_eq_ok_iff.1 h
    obtain ⟨built, s₂, hbuilt, hpure⟩ := bind_eq_ok_iff.1 hrest
    obtain ⟨heq, rfl⟩ := pure_eq_ok_iff.1 hpure
    cases heq
    obtain ⟨hlater, harranges⟩ := Selection.arranges_of_innermost_eq_ok hinner
    obtain ⟨hlater', harranges'⟩ := Built.arranges_of_encloseAll_eq_ok harranges hbuilt
    exact ⟨hdepth, hlater.trans hlater', built.demand, harranges' .refl⟩
  · -- With another number of targets, the run fails at once.
    obtain ⟨u, s₁, hfail, hrest⟩ := bind_eq_ok_iff.1 h
    exact absurd hfail AttemptM.fail_ne_ok

/-- A successful run arranges the levels of the nesting, with some demand on what is outside. There
is one target for each of them. -/
theorem Selection.arranges_of_kernelNest_eq_ok {nesting : Nesting} {targets targets' : Targets}
    {stms : List Stm} {nest : KernelNest} {st st' : Attempt}
    (h : (Selection.ofStms targets stms).kernelNest nesting st = .ok (targets', nest) st') :
    nesting.depth = targets.depth ∧
      ∃ demand, Arranges st'.scope (Selection.ofStms targets stms) nesting.bound
        (nesting.levels targets) st.supply.next st'.supply.next ⟨nest, targets', demand⟩ :=
  ⟨(kernelNest_eq_ok h).1, (kernelNest_eq_ok h).2.2⟩

/-- Names known before a run keep their types. -/
theorem Selection.later_of_kernelNest_eq_ok {nesting : Nesting} {targets targets' : Targets}
    {stms : List Stm} {nest : KernelNest} {st st' : Attempt}
    (h : (Selection.ofStms targets stms).kernelNest nesting st = .ok (targets', nest) st') :
    st.Later st' :=
  (kernelNest_eq_ok h).2.1

namespace Arranges

variable {scope : Scope} {s : Selection} {bound : NameSet} {levels : List (Enclosing × Target)}
  {lo hi : Nat} {built : Built}

/-- All levels have as many arrays as outputs are selected. -/
theorem length_pattern (h : Arranges scope s bound levels lo hi built) :
    ∀ l ∈ built.nest.toList, l.pattern.length = s.targets.inner.length := by
  induction h with
  | @innermost position e t captures lo hi =>
    intro l hl
    rw [List.mem_singleton.1 hl]
    exact List.length_map _
  | @enclose within position e t built d new captures lo mid top hi _ hdivides hnew _ _ _ _ _ ih =>
    have horder := hdivides.perm_order hnew
    have hinner := ih _ built.nest.outermost_mem
    intro l hl
    rw [Stack.toList_pushOuter, Stack.toList_map] at hl
    rcases List.mem_cons.1 hl with rfl | hl
    · -- The new level has one array for each position of the level just inside.
      show ((d.taken ++ new).map (·.binder)).length = _
      rw [List.length_map, hdivides.length_eq hnew, hinner]
    · -- The others have their arrays in another order.
      obtain ⟨l', hl', rfl⟩ := List.mem_map.1 hl
      rw [hinner, ← ih l' hl'] at horder
      rw [← ih l' hl']
      exact (Pattern.permute_perm horder).length_eq

end Arranges

end MapNest
