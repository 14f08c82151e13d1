import MapNest.Distribute
import MapNest.Proofs.Nest.Division

/-!
# `MapNest.Proofs.Moves`: what moving statements comes to

`distribute` and `interchange` put together the steps that the other modules describe. The theorems
here take a successful run of each apart into these steps, so that what is known of the steps can be
combined. Statements whose nest can be built are moved if there are tags enough for the kernel.
-/

set_option autoImplicit false

namespace MapNest

variable {settings : Settings} {nesting : Nesting} {targets : Targets} {st st' : Attempt}
  {moved : Moved}

/-- A plan is a kernel nest with the values that go into the arrays of its innermost level. -/
theorem plan_eq_ok {stms : List Stm} {planned : Planned}
    (h : plan nesting targets stms st = .ok planned st') :
    (Selection.ofStms targets stms).kernelNest nesting st
        = .ok (planned.targets, planned.nest) st' ∧
      planned.results = (Selection.ofStms targets stms).results planned.nest := by
  unfold plan at h
  obtain ⟨⟨targets', nest⟩, s₁, hnest, hpure⟩ := bind_eq_ok_iff.1 h
  obtain ⟨rfl, rfl⟩ := pure_eq_ok_iff.1 hpure
  exact ⟨hnest, rfl⟩

namespace LoopStm

variable {l l' : LoopStm} {values : List Operand}

/-- A binder of a loop, the value it takes and the place of both. -/
theorem bindingOf?_eq_some {v : Operand} {x : Binder × Name} (h : l.bindingOf? v = some x) :
    ∃ q : Nat, v = .var x.1.name ∧ l.pattern[q]? = some x.1 ∧ l.loop.ret[q]? = some x.2 := by
  obtain ⟨n, hn, hrest⟩ := Option.bind_eq_some_iff.1 h
  obtain ⟨q, hposition, hrest⟩ := Option.bind_eq_some_iff.1 hrest
  obtain ⟨b, hb, hrest⟩ := Option.bind_eq_some_iff.1 hrest
  obtain ⟨n', hn', hpair⟩ := Option.bind_eq_some_iff.1 hrest
  cases hpair
  obtain ⟨c, hc, rfl⟩ := Pattern.getElem?_of_position?_eq_some hposition
  rw [hb] at hc
  cases hc
  exact ⟨q, Operand.name?_eq_some_iff.1 hn, hb, hn'⟩

/-- A loop that is made to return some values returns at each place what it returned into the name
there. -/
theorem select?_eq_some (h : l.select? values = some l') {p : Nat}
    {v : Operand} (hv : values[p]? = some v) :
    ∃ (b : Binder) (n : Name) (q : Nat), v = .var b.name ∧ l.pattern[q]? = some b ∧
      l.loop.ret[q]? = some n ∧ l'.loop.ret[p]? = some n := by
  obtain ⟨bindings, hbindings, hpure⟩ := Option.bind_eq_some_iff.1 h
  cases hpure
  have hplace := rel_getElem? (mapM_eq_some_iff.1 hbindings) p
  rw [hv] at hplace
  cases hx : bindings[p]? with
  | none => rw [hx] at hplace; cases hplace
  | some x =>
    rw [hx] at hplace
    cases hplace with
    | some hbinding =>
    obtain ⟨q, hvar, hb, hn⟩ := bindingOf?_eq_some hbinding
    refine ⟨x.1, x.2, q, hvar, hb, hn, ?_⟩
    rw [List.getElem?_map, hx, Option.map_some]

/-- Selecting what a loop binds leaves the loop as it is, but for what it returns. -/
theorem loop_of_select?_eq_some (h : l.select? values = some l') :
    ∃ ret, l'.loop = { l.loop with ret } := by
  obtain ⟨bindings, -, hpure⟩ := Option.bind_eq_some_iff.1 h
  cases hpure
  exact ⟨_, rfl⟩

/-- What a loop returns after a selection it returned before. -/
theorem mem_ret_of_select?_eq_some (h : l.select? values = some l') {n : Name}
    (hn : n ∈ l'.loop.ret) : n ∈ l.loop.ret := by
  obtain ⟨bindings, hbindings, hpure⟩ := Option.bind_eq_some_iff.1 h
  cases hpure
  obtain ⟨x, hx, rfl⟩ := List.mem_map.1 hn
  obtain ⟨v, -, hbinding⟩ := exists_of_mem_right (mapM_eq_some_iff.1 hbindings) hx
  obtain ⟨q, -, -, hret⟩ := bindingOf?_eq_some hbinding
  exact List.mem_of_getElem? hret

end LoopStm

/-- A loop is moved by planning a nest for it, selecting what it contributes, and moving that past
the levels of the nest. -/
theorem interchange_eq_ok {stm : Stm}
    (h : interchange settings nesting targets stm st = .ok moved st') :
    ∃ l l' planned s, LoopStm.ofStm? stm = some l ∧
      plan nesting targets [stm] st = .ok planned s ∧ l.select? planned.results = some l' ∧
      l'.interchangeAll settings.copyConsumed planned.nest s = .ok moved.stms st' ∧
      moved.targets = planned.targets := by
  -- A statement that is no loop is refused, and so is a loop that returns something else.
  unfold interchange at h
  cases hloop : LoopStm.ofStm? stm with
  | none =>
    rw [hloop] at h
    exact absurd h AttemptM.refuse_ne_ok
  | some l =>
    rw [hloop] at h
    obtain ⟨planned, s₁, hplan, hrest⟩ := bind_eq_ok_iff.1 h
    cases hselect : l.select? planned.results with
    | none =>
      rw [hselect] at hrest
      exact absurd hrest AttemptM.refuse_ne_ok
    | some l' =>
      rw [hselect] at hrest
      obtain ⟨stms, hstms, rfl⟩ := bind_pure_eq_ok_iff.1 hrest
      exact ⟨l, l', planned, s₁, rfl, hplan, hselect, hstms, rfl⟩

/-- Statements are moved by planning a nest for them, flattening it, and finishing the kernel. Then
only the log is added to. -/
theorem distribute_eq_ok {stms : List Stm}
    (h : distribute settings nesting targets stms st = .ok moved st') :
    (stms = [] ∧ moved = ⟨targets, []⟩) ∨
      ∃ planned s flat supply kernel log, plan nesting targets stms st = .ok planned s ∧
        planned.nest.flatten (.ofStms stms planned.results) s.supply = .ok flat supply ∧
        finish settings flat.stm { s with supply } = .ok kernel { st' with log } ∧
        moved = ⟨planned.targets, flat.prelude ++ [kernel]⟩ := by
  unfold distribute at h
  split at h
  · rename_i hempty
    obtain ⟨rfl, rfl⟩ := pure_eq_ok_iff.1 h
    exact Or.inl ⟨List.isEmpty_iff.1 hempty, rfl⟩
  · obtain ⟨planned, s₁, hplan, hrest⟩ := bind_eq_ok_iff.1 h
    obtain ⟨flat, s₂, hflat, hrest⟩ := bind_eq_ok_iff.1 hrest
    obtain ⟨kernel, s₃, hkernel, hrest⟩ := bind_eq_ok_iff.1 hrest
    obtain ⟨u, s₄, hnote, hpure⟩ := bind_eq_ok_iff.1 hrest
    obtain ⟨supply, hflatten, rfl⟩ := AttemptM.liftM_eq_ok_iff.1 hflat
    obtain ⟨rfl, rfl⟩ := pure_eq_ok_iff.1 hpure
    obtain rfl := AttemptM.note_eq_ok_iff.1 hnote
    exact Or.inr ⟨planned, s₁, flat, supply, kernel, s₃.log, hplan, hflatten, hkernel, rfl⟩

/-- Finishing a kernel is giving fresh names if asked for, and then reducing if asked for. -/
theorem finish_eq {settings : Settings} {s : Stm} :
    finish settings s =
      (if settings.freshenKernels then liftM (s.freshen : FreshM Stm) else pure s) >>= fun s' =>
        if settings.reduceKernels then s'.reduce else pure s' := by
  unfold finish
  cases settings.freshenKernels <;> cases settings.reduceKernels <;> rfl

/-- Once a nest is planned and made into a kernel, it only remains to finish the kernel. -/
theorem exists_distribute_eq_ok_iff {stms : List Stm} {planned : Planned} {s : Attempt}
    {flat : FlatKernel} {supply : Supply} (hne : stms ≠ [])
    (hplan : plan nesting targets stms st = .ok planned s)
    (hflat : planned.nest.flatten (.ofStms stms planned.results) s.supply = .ok flat supply) :
    (∃ st', distribute settings nesting targets stms st = .ok moved st') ↔
      ∃ kernel s', finish settings flat.stm { s with supply } = .ok kernel s' ∧
        moved = ⟨planned.targets, flat.prelude ++ [kernel]⟩ := by
  constructor
  · rintro ⟨st', h⟩
    rcases distribute_eq_ok h with ⟨hempty, -⟩ | ⟨planned', s', flat', supply', kernel, log, hplan',
      hflat', hfinish, hmoved⟩
    · exact absurd hempty hne
    · cases hplan.symm.trans hplan'
      cases hflat.symm.trans hflat'
      exact ⟨kernel, _, hfinish, hmoved⟩
  · rintro ⟨kernel, s', hfinish, rfl⟩
    have hlift : (liftM (planned.nest.flatten (.ofStms stms planned.results))
        : AttemptM FlatKernel) s = .ok flat { s with supply } :=
      AttemptM.liftM_eq_ok_iff.2 ⟨supply, hflat, rfl⟩
    unfold distribute
    rw [if_neg (by simpa using hne)]
    exact ⟨_, bind_eq_ok_iff.2 ⟨_, _, hplan, bind_eq_ok_iff.2 ⟨_, _, hlift, bind_eq_ok_iff.2
      ⟨_, _, hfinish, bind_pure_eq_ok_iff.2 ⟨(), AttemptM.note_eq_ok_iff.2 rfl, rfl⟩⟩⟩⟩⟩

/-- Statements whose nest is made into a kernel are moved, unless the kernel has to be worked on. -/
theorem exists_distribute_eq_ok {targets' : Targets} {stms : List Stm} {nest : KernelNest}
    {flat : FlatKernel} {supply : Supply} (hfreshen : settings.freshenKernels = false)
    (hreduce : settings.reduceKernels = false) (hne : stms ≠ [])
    (hnest : (Selection.ofStms targets stms).kernelNest nesting st = .ok (targets', nest) st')
    (hflat : nest.flatten (.ofStms stms ((Selection.ofStms targets stms).results nest)) st'.supply
      = .ok flat supply) :
    ∃ st'', distribute settings nesting targets stms st
      = .ok ⟨targets', flat.prelude ++ [flat.stm]⟩ st'' := by
  have hplan : plan nesting targets stms st
      = .ok ⟨(Selection.ofStms targets stms).results nest, targets', nest⟩ st' :=
    bind_pure_eq_ok_iff.2 ⟨_, hnest, rfl⟩
  refine (exists_distribute_eq_ok_iff hne hplan hflat).2 ⟨flat.stm, { st' with supply }, ?_, rfl⟩
  unfold finish
  rw [hfreshen, hreduce]
  rfl

end MapNest
