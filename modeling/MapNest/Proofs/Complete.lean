import MapNest.Proofs.Aligned
import MapNest.Proofs.Freshen.Binds
import MapNest.Proofs.Kernel.Distinct
import MapNest.Proofs.Loop.Crosses
import MapNest.Proofs.Moves
import MapNest.Proofs.Nest.Ends
import MapNest.Proofs.Nest.Visible

/-!
# `MapNest.Proofs.Complete`: attempts that have to succeed

A failure of `distribute` or `interchange` means that the attempt was given something that
contradicts itself. `moves_complete` says what is enough to rule this out: a target for each map,
and types for the names that the maps' bodies bind and for the arrays that they produce
(`Attempt.Covers`). Statements are then moved or refused. In a nest whose widths and types mention
nothing that is bound in it (`Attempt.Regular`) they are not refused either, and a loop that runs
equally often everywhere (`LoopStm.Uniform`) is moved.

Three numbers could disagree on the way. A kernel's body has to yield a value for each array of the
innermost level, and these are found in the target by the names of the arrays
(`Selection.forall₂_results`). A loop has to return a value for each array of a level, and all
levels have as many (`LoopStm.Ready`). A rearrangement moved past the dimensions of a kernel must
not leave the range of dimensions (`Exp.Shifts`).
-/

set_option autoImplicit false

namespace MapNest

open AttemptM Attempt

variable {st : Attempt} {stop : Stop → Prop}

/-! ### Kernels -/

/-- Each width that is multiplied in takes a name for the product. -/
theorem multiplyWidths_draws {product : Operand} {widths : List Operand} :
    Draws Supply.next (multiplyWidths product widths) widths.length := by
  induction widths generalizing product with
  | nil => exact .pure
  | cons w rest ih =>
    rw [List.length_cons, Nat.add_comm]
    exact Supply.fresh_draws.bind fun _ => Draws.map ih

/-- A kernel takes a name for each level, if the body yields a value for each array. -/
theorem KernelNest.flatten_draws {nest : KernelNest} {body : Body}
    (hlen : body.result.length = nest.inner.pattern.length) :
    Draws Supply.next (nest.flatten body) nest.depth := by
  -- One name for each width after the first, which is multiplied in, and one for the thread.
  have hdepth : nest.depth = nest.widths.tail.length + 1 := by
    simp [widths, Stack.depth]
  unfold flatten
  rw [if_pos hlen.symm, hdepth]
  exact multiplyWidths_draws.bind fun _ => Supply.fresh_draws.map

/-- Moved past some outer dimensions, the dimensions that a rearrangement permutes stay within their
range. -/
def Exp.Shifts (outer : Nat) : Exp → Prop
  | .op (.rearrange _ perm _) => ∀ k ∈ perm, k + outer < dimensionLimit
  | _ => True

/-- The first expression of a body may be moved past some outer dimensions. -/
def Body.Shifts (outer : Nat) : Body → Prop
  | .yield _ => True
  | .bind _ e _ => e.Shifts outer

/-- A body of statements may be moved past outer dimensions if each of them may. -/
theorem Body.shifts_ofStms {outer : Nat} {stms : List Stm} {values : List Operand}
    (h : ∀ s ∈ stms, s.exp.Shifts outer) : (Body.ofStms stms values).Shifts outer := by
  cases stms with
  | nil => exact trivial
  | cons s stms => exact h s (List.mem_cons_self ..)

/-- Fresh names leave the dimensions of an expression as they are. -/
theorem Exp.Shifts.freshen {outer : Nat} {e e' : Exp} {s s' : Freshening} (he : e.Shifts outer)
    (h : e.freshen s = .ok e' s') : e'.Shifts outer := by
  cases e with
  | op o =>
    obtain ⟨rfl, rfl⟩ := Exp.op_freshen_eq_ok h
    -- Names are replaced, but the order of the dimensions stays.
    cases o <;> exact he
  | update checks source indices value =>
    obtain ⟨rfl, rfl⟩ := Exp.update_freshen_eq_ok h
    exact trivial
  | loop l =>
    obtain ⟨l', -, rfl⟩ := Exp.loop_freshen_eq_ok h
    exact trivial
  | map checks width function arrays =>
    obtain ⟨function', -, rfl⟩ := Exp.map_freshen_eq_ok h
    exact trivial
  | kernel k =>
    obtain ⟨k', -, rfl⟩ := Exp.kernel_freshen_eq_ok h
    exact trivial

/-- Fresh names leave the dimensions of a body as they are. -/
theorem Body.Shifts.freshen {outer : Nat} {b b' : Body} {s s' : Freshening} (hb : b.Shifts outer)
    (h : b.freshen s = .ok b' s') : b'.Shifts outer := by
  cases b with
  | yield values =>
    obtain ⟨rfl, rfl⟩ := Body.yield_freshen_eq_ok h
    exact trivial
  | bind pattern exp rest =>
    obtain ⟨exp', pattern', rest', s₁, s₂, hexp, -, -, rfl⟩ := Body.bind_freshen_steps h
    exact Exp.Shifts.freshen hb hexp

/-- A kernel with fresh names has as many dimensions, and its body does the same. -/
theorem Kernel.shifts_freshen {k k' : Kernel} {s s' : Freshening}
    (hk : k.body.Shifts k.space.length) (h : k.freshen s = .ok k' s') :
    k'.body.Shifts k'.space.length := by
  obtain ⟨s₁, s₂, s₃, hspace, -, -, hbody, -⟩ := Kernel.freshen_steps h
  have hlen : k.space.length = k'.space.length := by
    refine mapM_induction (fun _ l bs _ => l.length = bs.length) (fun _ => rfl) ?_ hspace
    intro a l b bs s s₁ s' _ ih
    rw [List.length_cons, List.length_cons, ih]
  rw [← hlen]
  exact hk.freshen hbody

/-- The operation that a kernel comes to is found if its dimensions stay within their range. -/
theorem Kernel.exists_wholeOp?_eq_ok {k : Kernel} (hk : k.body.Shifts k.space.length) :
    ∃ op?, k.wholeOp? = .ok op? := by
  rcases k.wholeOp?_cases with
    ⟨hnone, -⟩ | ⟨input, inner, hdoes, hop | ⟨-, checks, perm, array, rfl, d, hd, hlimit⟩⟩
  · exact ⟨_, hnone⟩
  · exact ⟨_, hop⟩
  · obtain ⟨b, hbody⟩ := hdoes.body
    rw [hbody] at hk
    have hlt : d + k.space.length < dimensionLimit := hk d hd
    omega

/-- Reducing ends well if the dimensions of the kernel stay within their range. -/
theorem Stm.reduce_ends {s : Stm} (hnext : st.supply.next ≤ Supply.lastTag)
    (hs : ∀ k, s.exp = .kernel k → k.body.Shifts k.space.length) :
    s.reduce.Ends st stop fun _ st' => st'.supply.next ≤ Supply.lastTag := by
  unfold reduce
  cases hexp : s.exp with
  | kernel k =>
    obtain ⟨op?, hop⟩ := Kernel.exists_wholeOp?_eq_ok (hs k hexp)
    simp only [hop]
    cases op? <;> exact hnext
  | _ => exact hnext

/-- Finishing a kernel ends well if its dimensions stay within their range. -/
theorem finish_ends {settings : Settings} {p : Pattern} {k : Kernel}
    (hnext : st.supply.next ≤ Supply.lastTag) (hk : k.body.Shifts k.space.length) :
    (finish settings ⟨p, .kernel k⟩).Ends st stop fun _ st' =>
      st'.supply.next ≤ Supply.lastTag := by
  have hfreshen : (if settings.freshenKernels then liftM (Stm.freshen ⟨p, .kernel k⟩)
      else pure ⟨p, .kernel k⟩ : AttemptM Stm).Ends st stop fun s st' =>
        st'.supply.next ≤ Supply.lastTag ∧
          ∀ k', s.exp = .kernel k' → k'.body.Shifts k'.space.length := by
    split
    · refine (ends_of_draws Ty.Any (Stm.draws _) hnext).imp fun s st' hs => ?_
      obtain ⟨hextends, hrun⟩ := hs
      refine ⟨hextends.next_le, fun k' hk' => ?_⟩
      obtain ⟨e', s', hexp, rfl, -⟩ := Stm.freshen_eq_ok hrun
      obtain ⟨k'', hkernel, rfl⟩ := Exp.kernel_freshen_eq_ok hexp
      cases hk'
      exact Kernel.shifts_freshen hk hkernel
    · refine .pure ⟨hnext, fun k' hk' => ?_⟩
      cases hk'
      exact hk
  rw [finish_eq]
  refine hfreshen.bind fun s st' _ hs => ?_
  split
  · exact Stm.reduce_ends hs.1 hs.2
  · exact hs.1

/-! ### Loops -/

/-- A level accepts a loop whose bound it does not bind. -/
theorem Level.accept_ends {level : Level} {index : Name} {v : Operand}
    (h : ∀ n, v = .var n → n ∉ level.bound) :
    (level.accept (.forBelow index v)).Ends st stop fun _ st' => st' = st := by
  have haccept : ¬ ∃ n ∈ Operand.names [v], n ∈ level.bound := by
    rintro ⟨n, hn, hbound⟩
    rw [Operand.mem_names, List.mem_singleton] at hn
    exact h n hn.symm hbound
  simp only [accept, if_neg haccept]
  exact .pure rfl

/-- Widening a carried value ends well, and the value inside stays. -/
theorem Level.widen_ends {level : Level} {m : Merge} (hnext : st.supply.next ≤ Supply.lastTag) :
    (level.widen m).Ends st stop fun w st' =>
      st.Extends stop Ty.Any st' ∧ w.inside = m := by
  unfold widen
  refine (freshBinder_ends Ty.Any hnext trivial).bind fun array s _ hs => ?_
  cases m.init.name?.bind level.input? with
  | some i => exact .pure ⟨hs.1, rfl⟩
  | none =>
    refine (freshBinder_ends Ty.Any hs.1.next_le trivial).bind fun start s' _ hs' => .pure ?_
    exact ⟨hs.1.trans hs'.1, rfl⟩

/-- Handing an array to the map ends well, copied or not. -/
theorem Level.hand_ends {level : Level} {copyConsumed : Bool} {i : RowInput}
    (hnext : st.supply.next ≤ Supply.lastTag) :
    (level.hand copyConsumed i).Ends st stop fun _ st' => st.Extends stop Ty.Any st' := by
  unfold hand
  split
  · exact (freshBinder_ends _ hnext trivial).bind fun copy s _ hs => .pure hs.1
  · exact .pure (.refl hnext)

/-- The array of a returned value is found if the loop carries the value. -/
theorem Widened.returned_ends {ws : List Widened} {n : Name}
    (hnext : st.supply.next ≤ Supply.lastTag) (hn : n ∈ ws.map (·.inside.param.name)) :
    (Widened.returned ws n).Ends st stop fun _ st' => st.Extends stop Ty.Any st' := by
  unfold returned
  cases hfind : ws.find? (·.inside.param.name = n) with
  | some w => exact .pure (.refl hnext)
  | none =>
    obtain ⟨w, hw, hname⟩ := List.mem_map.1 hn
    exact absurd (decide_eq_true hname) (List.find?_eq_none.1 hfind w hw)

namespace LoopStm

variable {l : LoopStm} {copyConsumed : Bool} {index : Name} {v : Operand}

/-- A loop is moved out of a level if the level does not bind its bound, and if it returns carried
values, one for each array of the level. -/
theorem interchange_ends {level : Level} (hnext : st.supply.next ≤ Supply.lastTag)
    (hform : l.loop.form = .forBelow index v) (hbound : ∀ n, v = .var n → n ∉ level.bound)
    (hret : ∀ n ∈ l.loop.ret, n ∈ l.loop.names)
    (hlen : l.loop.ret.length = level.pattern.length) :
    (l.interchange copyConsumed level).Ends st stop fun _ st' =>
      st'.supply.next ≤ Supply.lastTag := by
  unfold interchange
  rw [hform]
  refine (Level.accept_ends hbound).bind fun _ s _ hs => ?_
  rw [hs]
  -- Widening, handing in and naming the results draw names, and nothing else can go wrong.
  have hwiden : (l.loop.merge.mapM level.widen).Ends st stop fun widened s =>
      st.Extends stop Ty.Any s ∧
        List.Forall₂ (fun m w => w.inside = m) l.loop.merge widened :=
    Ends.mapM hnext (fun m _ s hs => Level.widen_ends hs.next_le) fun _ _ _ _ h _ => h
  refine hwiden.bind fun widened s₁ _ hs₁ => ?_
  obtain ⟨hextends₁, hinside⟩ := hs₁
  refine (Ends.mapM_extends Ty.Any hextends₁.next_le fun i _ s hs => Level.hand_ends hs).bind
    fun handed s₂ _ hs₂ => ?_
  refine (Ends.mapM_extends Ty.Any hs₂.1.next_le fun w _ s hs => ?_).bind fun results s₃ _ hs₃ => ?_
  · exact (ends_of_draws Ty.Any Supply.fresh_draws hs).bind fun _ _ _ hs' => .pure hs'.1
  -- Returned are carried values, and each was widened.
  have hnames : widened.map (·.inside.param.name) = l.loop.names :=
    (map_eq_map_of_forall₂ hinside fun m _ w _ hw => by rw [hw]).symm
  refine (Ends.mapM_extends Ty.Any hs₃.1.next_le fun n hn s hs => ?_).bind fun ret s₄ _ hs₄ => ?_
  · exact Widened.returned_ends hs (hnames ▸ hret n hn)
  rw [if_pos (hs₄.2.symm.trans hlen)]
  exact .pure hs₄.1.next_le

/-- A loop outside a level returns carried values if it did inside. -/
theorem Crosses.ret_subset {level : Level} {lo hi : Nat} {out : Interchanged}
    (h : Crosses level l lo hi out) : ∀ n ∈ out.loop.loop.ret, n ∈ out.loop.loop.names := by
  cases h with
  | intro _ _ _ _ _ _ _ _ hret =>
    intro n hn
    obtain ⟨m, -, w, hfind, rfl⟩ := exists_of_mem_right hret hn
    rw [Loop.names]
    refine List.mem_map.2 ⟨w.outside, List.mem_map_of_mem (List.mem_of_find?_eq_some hfind), rfl⟩

/-- What has to be known of a loop to move it out of some levels. -/
structure Ready (l : LoopStm) (index : Name) (v : Operand) (levels : List Level) : Prop where
  form : l.loop.form = .forBelow index v
  bound : ∀ level ∈ levels, ∀ n, v = .var n → n ∉ level.bound
  returned : ∀ n ∈ l.loop.ret, n ∈ l.loop.names
  length : ∀ level ∈ levels, l.loop.ret.length = level.pattern.length

/-- A loop outside a level is as ready for the next one as it was for this one. -/
theorem Ready.of_crosses {level : Level} {levels : List Level} {lo hi : Nat} {out : Interchanged}
    (h : l.Ready index v levels) (hcrosses : Crosses level l lo hi out) :
    out.loop.Ready index v levels where
  form := hcrosses.form_eq.trans h.form
  bound := h.bound
  returned := hcrosses.ret_subset
  length level' hlevel := hcrosses.length_ret.trans (h.length level' hlevel)

/-- A loop that is ready for all levels can be moved out of some of them. -/
theorem interchangeLevels_ends {all levels : List Level} {position : Nat}
    (hnext : st.supply.next ≤ Supply.lastTag) (hready : l.Ready index v all)
    (hsub : ∀ level ∈ levels, level ∈ all) :
    (l.interchangeLevels copyConsumed position levels).Ends st stop fun out st' =>
      st'.supply.next ≤ Supply.lastTag ∧ out.loop.Ready index v all := by
  induction levels generalizing position with
  | nil => exact .pure ⟨hnext, hready⟩
  | cons level rest ih =>
    have hlevel := hsub level (List.mem_cons_self ..)
    rw [interchangeLevels]
    -- The loop has left the levels inside, and what came out is ready for this one.
    refine (ih fun l' hl' => hsub l' (List.mem_cons_of_mem _ hl')).bind fun inner s _ hs => ?_
    obtain ⟨hnext', hinner⟩ := hs
    refine (interchange_ends hnext' hinner.form (hinner.bound level hlevel) hinner.returned
      (hinner.length level hlevel)).bind fun outer s' hrun hs' => ?_
    have houter := hinner.of_crosses (crosses_of_interchange_eq_ok hrun)
    exact ⟨hs', houter⟩

/-- A loop that is ready is moved out of a nest. -/
theorem interchangeAll_ends {nest : KernelNest} (hnext : st.supply.next ≤ Supply.lastTag)
    (hready : l.Ready index v nest.toList) :
    (l.interchangeAll copyConsumed nest).Ends st stop fun _ _ => True := by
  unfold interchangeAll
  exact (interchangeLevels_ends hnext hready fun _ h => h).bind fun _ _ _ _ => .pure trivial

end LoopStm

/-! ### What the innermost level wants -/

/-- Every array of the innermost level gets the value of an output. -/
theorem Selection.forall₂_results {s : Selection} {nest : KernelNest}
    (hperm : nest.inner.pattern.Perm (Target.pattern s.targets.inner)) :
    List.Forall₂ (fun _ v => ∃ o ∈ s.targets.inner, o.value = v) nest.inner.pattern
      (s.results nest) := by
  refine forall₂_filterMap fun b hb => ?_
  obtain ⟨o, ho, rfl⟩ := List.mem_map.1 (hperm.subset hb)
  cases hfind : s.targets.inner.find? (·.binder.name = o.binder.name) with
  | none => exact absurd (decide_eq_true rfl) (List.find?_eq_none.1 hfind o ho)
  | some o' =>
    refine ⟨o'.value, ?_, o', List.mem_of_find?_eq_some hfind, rfl⟩
    rw [Target.value?, hfind, Option.map_some]

namespace LoopStm

variable {l : LoopStm}

/-- A loop that returns something into each of its names binds any of these. -/
theorem exists_bindingOf?_eq_some (hlen : l.loop.ret.length = l.pattern.length) {n : Name}
    (hn : n ∈ Pattern.names l.pattern) :
    ∃ x, l.bindingOf? (.var n) = some x ∧ x.2 ∈ l.loop.ret := by
  obtain ⟨q, hq⟩ := Pattern.exists_position?_eq_some hn
  obtain ⟨b, hb, -⟩ := Pattern.getElem?_of_position?_eq_some hq
  have hlt : q < l.loop.ret.length := by
    have := (List.getElem?_eq_some_iff.1 hb).1
    omega
  have hret := List.getElem?_eq_getElem hlt
  refine ⟨(b, l.loop.ret[q]), ?_, List.getElem_mem hlt⟩
  simp [bindingOf?, Operand.name?, hq, hb, hret]

/-- A loop can be made to return any values among the names that it binds. -/
theorem exists_select?_eq_some (hlen : l.loop.ret.length = l.pattern.length)
    {values : List Operand} (hvalues : ∀ v ∈ values, ∃ n ∈ Pattern.names l.pattern, v = .var n) :
    ∃ l', l.select? values = some l' ∧ l'.loop.ret.length = values.length ∧
      ∀ n ∈ l'.loop.ret, n ∈ l.loop.ret := by
  have hall : List.Forall₂ (fun v x => l.bindingOf? v = some x ∧ x.2 ∈ l.loop.ret) values
      (values.filterMap l.bindingOf?) := by
    refine forall₂_filterMap fun v hv => ?_
    obtain ⟨n, hn, rfl⟩ := hvalues v hv
    obtain ⟨x, hx, hret⟩ := exists_bindingOf?_eq_some hlen hn
    exact ⟨x, hx, hx, hret⟩
  have hbindings := mapM_eq_some_iff.2 (hall.imp fun _ _ h => h.1)
  refine ⟨_, by rw [select?, hbindings]; rfl, ?_, fun n hn => ?_⟩
  · rw [List.length_map, hall.length_eq]
  · obtain ⟨x, hx, rfl⟩ := List.mem_map.1 hn
    obtain ⟨v, -, -, hret⟩ := exists_of_mem_right hall hx
    exact hret

end LoopStm

/-! ### The theorem -/

/-- An attempt is given a target for each map, and a type for every name that the body of a map
binds and for every array of a target. -/
structure Attempt.Covers (st : Attempt) (nesting : Nesting) (targets : Targets) : Prop where
  depth_eq : nesting.depth = targets.depth
  /-- No tag is beyond the last one. -/
  next_le : st.supply.next ≤ Supply.lastTag
  letBound : ∀ e ∈ nesting.toList, ∀ n ∈ e.letBound.toList, st.scope.contains n
  outputs : ∀ t ∈ targets.toList, ∀ o ∈ t, st.scope.contains o.binder.name

/-- No width and no size in a type that an attempt is given is bound in the nest. -/
structure Attempt.Regular (st : Attempt) (nesting : Nesting) (targets : Targets) : Prop where
  widths : ∀ e ∈ nesting.toList, e.level.width.Known nesting.bound
  params : ∀ e ∈ nesting.toList, ∀ i ∈ e.level.inputs, ∀ v ∈ i.param.ty.dims,
    v.Known nesting.bound
  letBound : ∀ e ∈ nesting.toList, ∀ n ∈ e.letBound.toList, ∀ ty ∈ st.scope.lookup? n,
    ∀ v ∈ ty.dims, v.Known nesting.bound
  arrays : ∀ t ∈ targets.toList, ∀ o ∈ t, ∀ v ∈ o.binder.ty.dims, v.Known nesting.bound
  outputs : ∀ t ∈ targets.toList, ∀ o ∈ t, ∀ ty ∈ st.scope.lookup? o.binder.name,
    ∀ v ∈ ty.dims, v.Known nesting.bound

/-- A loop that runs equally often in all iterations of a nest and returns carried values, one into
each of its names. -/
structure LoopStm.Uniform (l : LoopStm) (nesting : Nesting) (targets : Targets) (next : Nat) :
    Prop where
  /-- The loop counts up to a bound that is known outside and no new name. -/
  form : ∃ index v, l.loop.form = .forBelow index v ∧
    ∀ n, v = .var n → n ∉ nesting.bound ∧ n ∉ targets.bound ∧ n.tag < next
  length : l.loop.ret.length = l.pattern.length
  returned : ∀ n ∈ l.loop.ret, n ∈ l.loop.names

section Moves

variable {settings : Settings} {nesting : Nesting} {targets : Targets} {stms : List Stm}

/-- What an attempt to move statements may stop for. -/
def Stop.Refusal (allowed : Prop) : Stop → Prop
  | .refused _ => allowed
  | .failed _ => False

/-- If the nest is regular, the sizes in types are not bound in it. -/
theorem Attempt.kind_regular :
    Kind (Stop.Refusal ¬ st.Regular nesting targets)
      (fun ty => st.Regular nesting targets → ∀ v ∈ ty.dims, v.Known nesting.bound)
      nesting.bound where
  dims ty ty' hdims h := hdims ▸ h
  irregular ty h := by
    by_cases hregular : st.Regular nesting targets
    · exact Or.inl (h hregular)
    · exact Or.inr fun _ => hregular

/-- Each level finds the types that it looks for. In a regular nest these are regular types. -/
theorem Attempt.Covers.furnished (hc : st.Covers nesting targets) :
    ∀ x ∈ nesting.levels targets, Furnished (Stop.Refusal ¬ st.Regular nesting targets)
      (fun ty => st.Regular nesting targets → ∀ v ∈ ty.dims, v.Known nesting.bound) st x := by
  intro x hx
  obtain ⟨hmap, htarget⟩ := Nesting.mem_of_mem_levels hc.depth_eq hx
  have htypes : ∀ n, st.scope.contains n →
      (st.Regular nesting targets → ∀ ty ∈ st.scope.lookup? n, ∀ v ∈ ty.dims,
        v.Known nesting.bound) →
      st.Types (Stop.Refusal ¬ st.Regular nesting targets)
        (fun ty => st.Regular nesting targets → ∀ v ∈ ty.dims, v.Known nesting.bound) n := by
    intro n hn hknown
    obtain ⟨ty, hty⟩ := Option.isSome_iff_exists.1 hn
    unfold Types
    rw [hty]
    exact fun h => hknown h ty hty
  refine ⟨fun ty hty h => ?_, fun i hi h => h.params _ hmap i hi, fun n hn => ?_,
    fun o ho h => h.arrays _ htarget o ho, fun o ho => ?_⟩
  · rw [Ty.dims_arrayOf]
    exact List.forall_mem_cons.2 ⟨h.widths _ hmap, hty h⟩
  · exact htypes n (hc.letBound _ hmap n hn) fun h => h.letBound _ hmap n hn
  · exact htypes _ (hc.outputs _ htarget o ho) fun h => h.outputs _ htarget o ho

/-- Planning a nest ends well. It is refused only if the nest is not regular. -/
theorem plan_ends (hc : st.Covers nesting targets) :
    (plan nesting targets stms).Ends st (Stop.Refusal ¬ st.Regular nesting targets) fun _ st' =>
      st'.supply.next ≤ Supply.lastTag := by
  unfold plan
  exact (Selection.kernelNest_ends hc.depth_eq kind_regular hc.next_le hc.furnished).bind
    fun x s _ hs => .pure hs.1

/-- Moving statements into a kernel ends well. -/
theorem distribute_ends (hc : st.Covers nesting targets)
    (hshifts : ∀ s ∈ stms, s.exp.Shifts nesting.depth) :
    (distribute settings nesting targets stms).Ends st
      (Stop.Refusal ¬ st.Regular nesting targets) fun _ _ => True := by
  unfold distribute
  split
  · exact .pure trivial
  · refine (plan_ends hc).bind fun planned s hplan hs => ?_
    obtain ⟨hnest, hresults⟩ := plan_eq_ok hplan
    obtain ⟨-, demand, harranges⟩ := Selection.arranges_of_kernelNest_eq_ok hnest
    -- The body yields a value for each array of the innermost level.
    have hlen : (Body.ofStms stms planned.results).result.length
        = planned.nest.inner.pattern.length := by
      rw [Body.result_ofStms, hresults]
      exact (Selection.forall₂_results harranges.perm_inner).length_eq.symm
    refine (ends_of_draws Ty.Any (KernelNest.flatten_draws hlen) hs).bind fun flat s' _ hs' => ?_
    obtain ⟨hextends, hflat⟩ := hs'
    obtain ⟨width, thread, -, -, -, -, hstm⟩ := KernelNest.flatten_eq_ok hflat
    rw [hstm]
    have hkernel : (planned.nest.kernel (.ofStms stms planned.results) width thread).body.Shifts
        (planned.nest.kernel (.ofStms stms planned.results) width thread).space.length := by
      -- The kernel has an index for each of the maps.
      have hdepth : planned.nest.depth = nesting.depth :=
        harranges.builds.depth_nest.trans (Nesting.length_levels hc.depth_eq)
      have hspace : (planned.nest.kernel (.ofStms stms planned.results) width thread).space.length
          = nesting.depth := by
        rw [← hdepth, ← Stack.length_toList]
        exact List.length_map _
      rw [hspace]
      exact Body.shifts_ofStms hshifts
    exact (finish_ends hextends.next_le hkernel).bind fun _ _ _ _ => trivial

/-- What the maps of a nest declare is bound in the nest or is an array of a target. -/
theorem mem_declared_levels (hdepth : nesting.depth = targets.depth) {n : Name}
    (hn : n ∈ declared (nesting.levels targets)) : n ∈ nesting.bound ∨ n ∈ targets.bound := by
  obtain ⟨x, hx, hn⟩ := List.mem_flatMap.1 hn
  obtain ⟨hmap, htarget⟩ := Nesting.mem_of_mem_levels hdepth hx
  rcases List.mem_append.1 hn with hn | hn
  · exact Or.inr (NameSet.mem_ofList.2 (List.mem_flatMap.2 ⟨x.2, htarget, hn⟩))
  · exact Or.inl (Nesting.mem_bound.2 ⟨x.1, hmap, Enclosing.mem_names.1 hn⟩)

/-- Moving a loop that runs equally often everywhere ends well in a regular nest, if all that the
innermost level wants are names. -/
theorem interchange_ends {l : LoopStm} (hc : st.Covers nesting targets)
    (hregular : st.Regular nesting targets) (hl : l.Uniform nesting targets st.supply.next)
    (hnames : ∀ o ∈ targets.inner, ∃ n, o.value = .var n) :
    (interchange settings nesting targets l.toStm).Ends st (fun _ => False) fun _ _ => True := by
  obtain ⟨⟨index, v, hform, hv⟩, hlength, hreturned⟩ := hl
  unfold interchange
  rw [LoopStm.ofStm?_toStm]
  -- In a regular nest planning is not refused.
  have hstop : ∀ e, ¬ Stop.Refusal (¬ st.Regular nesting targets) e := by
    rintro (reason | reason) he
    · exact he hregular
    · exact he
  have hplan : (plan nesting targets [l.toStm]).Ends st (fun _ => False) fun _ st' =>
      st'.supply.next ≤ Supply.lastTag := (plan_ends hc).mono hstop fun _ _ h => h
  refine hplan.bind fun planned s hplan hs => ?_
  obtain ⟨hnest, hresults⟩ := plan_eq_ok hplan
  obtain ⟨-, demand, harranges⟩ := Selection.arranges_of_kernelNest_eq_ok hnest
  have hpattern := Selection.forall₂_results harranges.perm_inner
  rw [← hresults] at hpattern
  -- What is selected returns names that the loop binds.
  have hvalues : ∀ v ∈ planned.results, ∃ n ∈ Pattern.names l.pattern, v = .var n := by
    intro v hv
    obtain ⟨b, -, o, ho, rfl⟩ := exists_of_mem_right hpattern hv
    rw [Selection.inner_ofStms] at ho
    obtain ⟨ho, hcomputed⟩ := List.mem_filter.1 ho
    obtain ⟨n, hn⟩ := hnames o ho
    refine ⟨n, ?_, hn⟩
    have hbound := Output.computed_iff.1 (of_decide_eq_true hcomputed) n hn
    simpa [LoopStm.toStm] using hbound
  obtain ⟨l', hselect, hlength', hsub⟩ := LoopStm.exists_select?_eq_some hlength hvalues
  obtain ⟨ret, hloop⟩ := LoopStm.loop_of_select?_eq_some hselect
  rw [hselect]
  have hready : l'.Ready index v planned.nest.toList := by
    refine ⟨?_, fun level hlevel n hn hbound => ?_, fun n hn => ?_, fun level hlevel => ?_⟩
    · rw [hloop]
      exact hform
    · -- A level binds names of the nest, arrays that the maps produce, and new names.
      obtain ⟨houter, htargets, htag⟩ := hv n hn
      have hdeclared : n ∈ declared (retarget (nesting.levels targets) planned.targets) := by
        rw [declared_eq]
        exact List.mem_append_right _ (harranges.builds.mem_hidden_of_mem_bound hlevel hbound)
      rcases harranges.builds.mem_declared hdeclared with hold | ⟨hnew, -⟩
      · exact (mem_declared_levels hc.depth_eq hold).elim houter htargets
      · omega
    · rw [hloop]
      exact hreturned n (hsub n hn)
    · rw [hlength', ← hpattern.length_eq, harranges.length_pattern _ hlevel,
        harranges.length_pattern _ planned.nest.inner_mem]
  refine (LoopStm.interchangeAll_ends hs hready).bind fun _ _ _ _ => .pure trivial

/-- Suppose that an attempt has a target for each map, and types for what the maps bind. Then moving
statements out of the nest contradicts nothing: they are moved, or refused in a nest that is not
regular, or all tags are used up. In a regular nest, a loop that runs equally often everywhere is
moved if all that the innermost level wants are names, or all tags are used up. -/
theorem moves_complete (hc : st.Covers nesting targets) :
    (∀ (settings : Settings) (stms : List Stm), (∀ s ∈ stms, s.exp.Shifts nesting.depth) →
      (∃ moved st', distribute settings nesting targets stms st = .ok moved st') ∨
      (¬ st.Regular nesting targets ∧
        ∃ reason st', distribute settings nesting targets stms st = .error (.refused reason) st') ∨
      ∃ st', distribute settings nesting targets stms st = .error (.failed .overflow) st' ∧
        st'.supply.next = Supply.lastTag) ∧
    (st.Regular nesting targets → ∀ (settings : Settings) (l : LoopStm),
      l.Uniform nesting targets st.supply.next → (∀ o ∈ targets.inner, ∃ n, o.value = .var n) →
      (∃ moved st', interchange settings nesting targets l.toStm st = .ok moved st') ∨
      ∃ st', interchange settings nesting targets l.toStm st = .error (.failed .overflow) st' ∧
        st'.supply.next = Supply.lastTag) := by
  refine ⟨fun settings stms hshifts => ?_, fun hregular settings l hl hnames => ?_⟩
  · rcases (distribute_ends hc hshifts).cases with
      ⟨moved, st', hok, -⟩ | ⟨e, st', hstopped, hrefusal⟩ | hfailed
    · exact Or.inl ⟨moved, st', hok⟩
    · cases e with
      | refused reason => exact Or.inr (Or.inl ⟨hrefusal, reason, st', hstopped⟩)
      | failed reason => exact hrefusal.elim
    · exact Or.inr (Or.inr hfailed)
  · rcases (interchange_ends hc hregular hl hnames).cases with
      ⟨moved, st', hok, -⟩ | ⟨_, _, -, hrefusal⟩ | hfailed
    · exact Or.inl ⟨moved, st', hok⟩
    · exact hrefusal.elim
    · exact Or.inr hfailed

end Moves

/-! Two maps, with a value that the outer one computes and the inner one reads:

    map i < 2 (xs <- xss):
      c = i
      map j < 3 (x <- xs):
        a = x + c

The inner statement is moved into a kernel. Where it is a loop instead, the loop is moved out of
both maps. -/

namespace Offsets

/-- The maps. -/
def nesting : Nesting :=
  ⟨[⟨.ofList [⟨"c", 3⟩, ⟨"ys", 4⟩],
      ⟨[⟨⟨"yss", 0⟩, .array .i32 [.ofInt32 2, .ofInt32 3] false⟩], [], .ofInt32 2, ⟨"i", 1⟩,
        [⟨⟨⟨"xs", 2⟩, .array .i32 [.ofInt32 3] false⟩, ⟨"xss", 10⟩⟩]⟩⟩],
    ⟨∅, ⟨[⟨⟨"ys", 4⟩, .array .i32 [.ofInt32 3] false⟩], [], .ofInt32 3, ⟨"j", 5⟩,
      [⟨⟨⟨"x", 6⟩, .scalar .i32⟩, ⟨"xs", 2⟩⟩]⟩⟩⟩

/-- What they produce. -/
def targets : Targets :=
  ⟨[[⟨⟨⟨"yss", 0⟩, .array .i32 [.ofInt32 2, .ofInt32 3] false⟩, .var ⟨"ys", 4⟩⟩]],
    [⟨⟨⟨"ys", 4⟩, .array .i32 [.ofInt32 3] false⟩, .var ⟨"a", 7⟩⟩]⟩

/-- The statement at the heart. -/
def stms : List Stm := [Stm.arith .add ⟨"a", 7⟩ .i32 (.var ⟨"x", 6⟩) (.var ⟨"c", 3⟩)]

/-- A loop in its place. -/
def loop : LoopStm :=
  ⟨[⟨⟨"a", 7⟩, .scalar .i32⟩],
    ⟨[⟨"acc", 8⟩], [⟨⟨⟨"acc", 8⟩, .scalar .i32⟩, .var ⟨"x", 6⟩⟩], .forBelow ⟨"k", 9⟩ (.ofInt32 5),
      .ofStms [Stm.arith .add ⟨"s", 11⟩ .i32 (.var ⟨"acc", 8⟩) (.var ⟨"c", 3⟩)]
        [.var ⟨"s", 11⟩]⟩⟩

/-- The attempt to move them. -/
def attempt : Attempt :=
  { supply := ⟨12⟩
    scope := (∅ : Scope).insertAll
      [⟨⟨"yss", 0⟩, .array .i32 [.ofInt32 2, .ofInt32 3] false⟩, ⟨⟨"c", 3⟩, .scalar .i32⟩,
        ⟨⟨"ys", 4⟩, .array .i32 [.ofInt32 3] false⟩] }

/-- There is a target for each map and a type for each name that is looked up. -/
theorem covers : attempt.Covers nesting targets where
  depth_eq := rfl
  next_le := by decide
  letBound := by decide
  outputs := by decide

/-- All sizes are constants. -/
theorem regular : attempt.Regular nesting targets where
  widths := by decide
  params := by decide
  letBound := by decide
  arrays := by decide
  outputs := by decide

/-- The loop counts up to a constant, and returns the one value that it carries. -/
theorem uniform : loop.Uniform nesting targets 12 where
  form := ⟨_, _, rfl, by simp [Operand.ofInt32]⟩
  length := rfl
  returned := by decide

end Offsets

/-- The statement and the loop are both moved. -/
theorem moves_complete_offsets :
    Offsets.attempt.Covers Offsets.nesting Offsets.targets ∧
      Offsets.attempt.Regular Offsets.nesting Offsets.targets ∧
      Offsets.loop.Uniform Offsets.nesting Offsets.targets Offsets.attempt.supply.next ∧
      (∃ moved st', distribute {} Offsets.nesting Offsets.targets Offsets.stms Offsets.attempt
        = .ok moved st') ∧
      ∃ moved st', interchange {} Offsets.nesting Offsets.targets Offsets.loop.toStm Offsets.attempt
        = .ok moved st' := by
  obtain ⟨hdistribute, hinterchange⟩ := moves_complete Offsets.covers
  refine ⟨Offsets.covers, Offsets.regular, Offsets.uniform, ?_, ?_⟩
  · have hsupply : (stateOf (distribute {} Offsets.nesting Offsets.targets Offsets.stms
        Offsets.attempt)).supply.next < Supply.lastTag := by
      decide +kernel
    rcases hdistribute {} Offsets.stms (by simp [Offsets.stms, Stm.arith, Stm.ofOp, Exp.Shifts])
      with hok | ⟨hirregular, -⟩ | ⟨st', hfailed, hnext⟩
    · exact hok
    · exact absurd Offsets.regular hirregular
    · rw [hfailed, stateOf, hnext] at hsupply
      exact absurd hsupply (Nat.lt_irrefl _)
  · have hsupply : (stateOf (interchange {} Offsets.nesting Offsets.targets Offsets.loop.toStm
        Offsets.attempt)).supply.next < Supply.lastTag := by
      decide +kernel
    have hnames : ∀ o ∈ Offsets.targets.inner, ∃ n, o.value = .var n := by
      simp [Offsets.targets]
    rcases hinterchange Offsets.regular {} Offsets.loop Offsets.uniform hnames with
      hok | ⟨st', hfailed, hnext⟩
    · exact hok
    · rw [hfailed, stateOf, hnext] at hsupply
      exact absurd hsupply (Nat.lt_irrefl _)

end MapNest
