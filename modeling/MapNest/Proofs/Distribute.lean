import MapNest.Proofs.Freshen
import MapNest.Proofs.Kernel.Flatten
import MapNest.Proofs.Moves

/-!
# `MapNest.Proofs.Distribute`: distributed code stays in its place

`distribute_outside` says of a kernel that takes over some statements of a well-scoped nest that it
can stand in front of the nest: the types and sizes at its boundary mention nothing that is bound in
the nest, and neither it nor the computation of its width reads anything of the nest, unless the
statements themselves bind it. The check for irregular arrays sees the types at one level at a time
and nothing else. That widths, checks and arrays are fine as well rests on what all levels together
demand (`Builds.closed`).

A kernel that binds an index of the nest and reads it as an array hides this as long as the index
keeps its name. Fresh names bring it to light (`distribute_escapes_index`), so the theorem asks of a
nest whose kernels get fresh names that no map reads an index as an array.
-/

set_option autoImplicit false

namespace MapNest

/-! ### What the statements contribute -/

namespace Selection

variable {targets : Targets} {stms : List Stm} {nest : KernelNest} {n : Name}

/-- What is selected is a constant or is bound by the statements. -/
theorem mem_inner_ofStms {o : Output} :
    o ∈ (ofStms targets stms).targets.inner ↔
      o ∈ targets.inner ∧ ∀ n, o.value = .var n → n ∈ Stm.bound stms := by
  obtain ⟨b, v⟩ := o
  show _ ∈ targets.inner.filter _ ↔ _
  rw [List.mem_filter]
  refine and_congr_right fun _ => ?_
  cases v with
  | const c => simp [Output.passed?]
  | var m =>
    simp only [Output.passed?, Operand.var.injEq, forall_eq']
    split
    · rename_i hm
      simp only [Option.isNone_none, hm]
    · rename_i hm
      simp only [Option.isNone_some, Bool.false_eq_true, hm]

/-- The names that the body of the kernel returns are bound by the statements. -/
theorem mem_bound_of_mem_results (hn : .var n ∈ (ofStms targets stms).results nest) :
    n ∈ Stm.bound stms := by
  obtain ⟨b, -, hvalue⟩ := List.mem_filterMap.1 hn
  obtain ⟨o, hfind, hvar⟩ := Option.map_eq_some_iff.1 hvalue
  exact (mem_inner_ofStms.1 (List.mem_of_find?_eq_some hfind)).2 n hvar

/-- The body of the kernel reads what the statements read. -/
theorem mem_freeAll_of_mem_free
    (hn : n ∈ (Body.ofStms stms ((ofStms targets stms).results nest)).free) :
    n ∈ Stm.freeAll stms := by
  rw [Body.mem_free_iff, Body.stms_ofStms, Body.result_ofStms] at hn
  rcases hn with hfree | ⟨hresult, hnot⟩
  · exact hfree
  · exact absurd (mem_bound_of_mem_results hresult) hnot

end Selection

/-- A body binds what the patterns of its statements bind, and what is bound inside their
expressions. -/
theorem Body.mem_names_binders_ofStms {stms : List Stm} {values : List Operand} {n : Name}
    (hn : n ∈ Pattern.names (Body.ofStms stms values).binders) :
    n ∈ Stm.bound stms ∨ ∃ s ∈ stms, ∃ b ∈ s.exp.binders, b.name = n := by
  rw [Body.binders_ofStms] at hn
  obtain ⟨b, hb, rfl⟩ := Pattern.mem_names.1 hn
  obtain ⟨s, hs, hb⟩ := List.mem_flatMap.1 hb
  rcases List.mem_append.1 hb with hb | hb
  · exact Or.inl (Stm.mem_bound.2 ⟨s, hs, b, hb, rfl⟩)
  · exact Or.inr ⟨s, hs, b, hb, rfl⟩

/-! ### The levels -/

/-- If something is selected, the levels built from a well-scoped nest demand nothing of it. -/
theorem Builds.closed {s : Selection} {nesting : Nesting} {targets : Targets} {lo hi : Nat}
    {built : Built} (hs : Scoped nesting targets lo)
    (h : Builds s nesting.bound (nesting.levels targets) lo hi built) (hne : s.targets.inner ≠ []) :
    built.nest.Closed nesting.bound ⟨s.free ∩ nesting.bound, s.consumed ∩ nesting.bound⟩ where
  scope := h.level_scoped hs [] rfl
  demand _ hn := h.demand_eq ▸ h.not_mem_demand hs hn hn
  widths := (h.width_known hne hs [] rfl).2

/-! ### The finished kernel -/

/-- A finished kernel is the kernel itself or has fresh names, as the settings ask. -/
inductive Kernel.Finished (settings : Settings) (supply : Supply) (k : Kernel) : Kernel → Prop
  /-- The names stay. -/
  | same (hset : settings.freshenKernels = false) : Finished settings supply k k
  /-- All names bound inside are fresh. -/
  | fresh {k' : Kernel} {st' : Freshening} (hset : settings.freshenKernels = true)
      (hfresh : k.Freshened ⟨[], supply⟩ k' st') : Finished settings supply k k'

/-- A kernel that is not put into a simpler form is finished with its pattern unchanged. -/
theorem finish_eq_ok {settings : Settings} (hreduce : settings.reduceKernels = false) {p : Pattern}
    {k : Kernel} {s : Stm} {st st' : Attempt}
    (h : finish settings ⟨p, .kernel k⟩ st = .ok s st') :
    ∃ k', s = ⟨p, .kernel k'⟩ ∧ k.Finished settings st.supply k' := by
  unfold finish at h
  rw [hreduce] at h
  cases hset : settings.freshenKernels with
  | false =>
    rw [hset] at h
    obtain ⟨s₁, hsame, rfl⟩ := bind_pure_eq_ok_iff.1 h
    obtain ⟨rfl, rfl⟩ := pure_eq_ok_iff.1 hsame
    exact ⟨k, rfl, .same hset⟩
  | true =>
    rw [hset] at h
    obtain ⟨s₁, hfreshen, rfl⟩ := bind_pure_eq_ok_iff.1 h
    obtain ⟨supply', hstm, rfl⟩ := AttemptM.liftM_eq_ok_iff.1 hfreshen
    obtain ⟨k', st', rfl, hfresh⟩ := Stm.freshen_kernel_eq_ok hstm
    exact ⟨k', rfl, .fresh hset hfresh⟩

/-- Before anything is renamed, no name is replaced. -/
theorem Freshening.above_start {supply : Supply} :
    Freshening.Above supply.next ⟨[], supply⟩ :=
  ⟨fun _ hp => absurd hp List.not_mem_nil, Nat.le_refl _⟩

namespace Kernel.Finished

variable {settings : Settings} {supply : Supply} {k k' : Kernel} {bound : NameSet} {n : Name}

/-- If no type in a kernel depends on the nest, then none in the finished kernel does. -/
theorem regular (h : k.Finished settings supply k') (hbound : ∀ n ∈ bound, n.tag < supply.next)
    (hk : k.Regular bound) : k'.Regular bound := by
  cases h with
  | same => exact hk
  | fresh _ hfresh => exact hfresh.regular Freshening.above_start hbound hk

/-- An old name that a finished kernel reads, the kernel before mentioned, or its body read or bound
it, and then it was none of the kernel's own. Mentioned and the kernel's own it may be only if names
are fresh. -/
theorem old (h : k.Finished settings supply k') (hn : n.tag < supply.next)
    (hindices : ∀ i ∈ k.inputs, .var n ∈ i.indices → n ∈ k.space.map (·.index))
    (hfree : n ∈ k'.free) :
    (k.Mentions n ∧ (settings.freshenKernels = false → n ∉ k.names)) ∨
      ((n ∈ k.body.free ∨ n ∈ Pattern.names k.body.binders) ∧ n ∉ k.names) := by
  obtain ⟨hinside, hnot⟩ := Kernel.mem_free.1 hfree
  cases h with
  | same =>
    -- The indices at which arrays are read are the kernel's own, and hidden with it.
    rcases hinside with hbody | hmention | ⟨i, hi, hindex⟩
    · exact Or.inr ⟨Or.inl hbody, hnot⟩
    · exact Or.inl ⟨hmention, fun _ => hnot⟩
    · refine absurd ?_ hnot
      exact List.mem_append_left _ (List.mem_cons_of_mem _ (hindices i hi hindex))
  | fresh hset hfresh =>
    -- Renaming may hide less: an array keeps its name while the kernel's own names change.
    rcases hinside with hbody | hmention | ⟨i', hi', hindex⟩
    · obtain ⟨hread, -, hown⟩ := hfresh.old_body Freshening.above_start hn hbody
      exact Or.inr ⟨hread, hown⟩
    · have hmention := (hfresh.old_mention Freshening.above_start hn hmention).1
      exact Or.inl ⟨hmention, fun hunset => by rw [hset] at hunset; cases hunset⟩
    · obtain ⟨⟨i, hi, hindex⟩, -, hspace⟩ := hfresh.old_index Freshening.above_start hn hi' hindex
      exact absurd (hindices i hi hindex) hspace

end Kernel.Finished

/-! ### Moving statements into a kernel -/

section Distribute

variable {settings : Settings} {nesting : Nesting} {targets : Targets} {stms : List Stm}
  {st st' : Attempt} {moved : Moved} {nest : KernelNest} {n : Name}

/-- What the body of a kernel reads or binds of the nest is bound by the kernel or by the
statements. -/
theorem KernelNest.Closed.mem_bound_of_body {values : List Operand} {consumed : NameSet}
    {width : Operand} {thread : Name}
    (hclosed : nest.Closed nesting.bound
      ⟨(Selection.ofStms targets stms).free ∩ nesting.bound, consumed⟩)
    (hvalues : values = (Selection.ofStms targets stms).results nest)
    (hbinders : ∀ s ∈ stms, ∀ b ∈ s.exp.binders, b.name ∉ nesting.bound) (hn : n ∈ nesting.bound)
    (hbody : n ∈ (Body.ofStms stms values).free ∨
      n ∈ Pattern.names (Body.ofStms stms values).binders)
    (hown : n ∉ (nest.kernel (Body.ofStms stms values) width thread).names) :
    n ∈ Stm.bound stms := by
  rcases hbody with hread | hbinder
  · -- A name of the nest that the statements read is bound by a level, and so by the kernel.
    by_cases hbound : n ∈ Stm.bound stms
    · exact hbound
    · have hfree : n ∈ Stm.freeAll stms := by
        rw [hvalues] at hread
        exact Selection.mem_freeAll_of_mem_free hread
      have hdemand : n ∈ (Selection.ofStms targets stms).free ∩ nesting.bound :=
        NameSet.mem_inter.2 ⟨NameSet.mem_sdiff.2 ⟨hfree, hbound⟩, hn⟩
      obtain ⟨l, hl, hlevel⟩ := hclosed.exists_mem_bound hn hdemand
      exact absurd (KernelNest.mem_names_kernel hread hl hlevel) hown
  · rcases Body.mem_names_binders_ofStms hbinder with hbound | ⟨s, hs, b, hb, hname⟩
    · exact hbound
    · exact absurd (hname ▸ hn) (hbinders s hs b hb)

/-- The finished kernel reads nothing of the nest but what the statements bind. -/
theorem KernelNest.Closed.mem_bound_of_finished {values : List Operand} {consumed : NameSet}
    {width : Operand} {thread : Name} {supply : Supply} {k : Kernel}
    (hclosed : nest.Closed nesting.bound
      ⟨(Selection.ofStms targets stms).free ∩ nesting.bound, consumed⟩)
    (hvalues : values = (Selection.ofStms targets stms).results nest)
    (hbinders : ∀ s ∈ stms, ∀ b ∈ s.exp.binders, b.name ∉ nesting.bound)
    (hindex : settings.freshenKernels = true →
      ∀ l ∈ nest.toList, ∀ r ∈ l.inputs, ∀ l' ∈ nest.toList, r.array ≠ l'.index)
    (hwidth : width.Known nesting.bound) (hsupply : ∀ n ∈ nesting.bound, n.tag < supply.next)
    (hk : (nest.kernel (Body.ofStms stms values) width thread).Finished settings supply k)
    (hfree : n ∈ k.free) (hn : n ∈ nesting.bound) : n ∈ Stm.bound stms := by
  rcases hk.old (hsupply n hn) (fun i => KernelNest.index_mem_space) hfree with
    ⟨hmention, hown⟩ | ⟨hbody, hown⟩
  · -- The kernel could mention an index of the nest only as an array.
    obtain ⟨⟨l, hl, rfl⟩, l', hl', r, hr, harray⟩ := hclosed.mentions_index hwidth hn hmention
    cases hset : settings.freshenKernels with
    | false =>
      refine absurd ?_ (hown hset)
      exact List.mem_append_left _ (List.mem_cons_of_mem _ (KernelNest.mem_space.2 ⟨l, hl, rfl⟩))
    | true => exact absurd harray (hindex hset l' hl' r hr l hl)
  · exact hclosed.mem_bound_of_body hvalues hbinders hn hbody hown

/-- What was moved out of a nest can stand in front of it. -/
structure Moved.Outside (nesting : Nesting) (targets : Targets) (stms : List Stm) (moved : Moved) :
    Prop where
  /-- The types and sizes of the kernel, and the computation of its width, are known there. -/
  regular : (stms = [] ∧ moved.stms = []) ∨
    ∃ prelude pattern k, moved.stms = prelude ++ [⟨pattern, .kernel k⟩] ∧
      (∀ n ∈ Pattern.dimNames pattern, n ∉ nesting.bound) ∧ k.Regular nesting.bound ∧
      ∀ s ∈ prelude, ∀ n ∈ s.free, n ∉ nesting.bound
  /-- So are the types of the arrays that the maps left behind have to produce in addition. -/
  added : List.Forall₂
    (fun t t' => ∀ o ∈ t', o ∈ t ∨ ∀ n ∈ o.binder.ty.dimNames, n ∉ nesting.bound)
    targets.toList moved.targets.toList
  /-- Nothing of the nest is read but what the statements bind. -/
  free : ∀ n ∈ Stm.freeAll moved.stms, n ∈ nesting.bound → n ∈ Stm.bound stms

/-- Statements of a well-scoped nest that produce something can stand in front of the nest once they
are in a kernel, if its names stay or no map reads an index as an array. -/
theorem distribute_outside (hs : Scoped nesting targets st.supply.next)
    (hbinders : ∀ s ∈ stms, ∀ b ∈ s.exp.binders, b.name ∉ nesting.bound)
    (hindex : settings.freshenKernels = true → ∀ e ∈ nesting.toList, ∀ r ∈ e.level.inputs,
      ∀ e' ∈ nesting.toList, r.array ≠ e'.level.index)
    (hresult : ∃ o ∈ targets.inner, ∀ n, o.value = .var n → n ∈ Stm.bound stms)
    (hreduce : settings.reduceKernels = false)
    (h : distribute settings nesting targets stms st = .ok moved st') :
    moved.Outside nesting targets stms := by
  rcases distribute_eq_ok h with
    ⟨rfl, rfl⟩ | ⟨planned, s, flat, supply, kernel, s', hplan, hflat, hfinish, rfl⟩
  · -- Nothing is moved, and the targets stay as they are.
    refine ⟨Or.inl ⟨rfl, rfl⟩, List.forall₂_same.2 fun t _ o ho => Or.inl ho, fun n hn => ?_⟩
    exact absurd hn NameSet.not_mem_empty
  obtain ⟨hnest, hresults⟩ := plan_eq_ok hplan
  obtain ⟨demand, hbuilds⟩ := Selection.builds_of_kernelNest_eq_ok hnest
  obtain ⟨o, ho, hvalue⟩ := hresult
  have hclosed := hbuilds.closed hs (List.ne_nil_of_mem (Selection.mem_inner_ofStms.2 ⟨ho, hvalue⟩))
  obtain ⟨width, thread, s₁, hwidth, -, hle, hstm⟩ := KernelNest.flatten_eq_ok hflat
  rw [hstm] at hfinish
  obtain ⟨k, rfl, hfinished⟩ := finish_eq_ok hreduce hfinish
  -- All names of the nest are older than those drawn on the way.
  have hold : ∀ n ∈ nesting.bound, n.tag < s.supply.next := by
    intro n hn
    have := hs.tag_of_mem_bound hn
    have := hbuilds.le
    omega
  have hle' := (multiplyWidths_drawn hwidth).2.2
  obtain ⟨htotal, hprelude, hnames⟩ := multiplyWidths_known
    (fun w hw => by
      obtain ⟨l, hl, rfl⟩ := List.mem_map.1 (List.mem_of_mem_tail hw)
      exact hclosed.widths l hl)
    (hclosed.widths _ planned.nest.outermost_mem) hold hwidth
  have hsupply : ∀ n ∈ nesting.bound, n.tag < supply.next := by
    intro n hn
    have := hold n hn
    omega
  have hpattern : ∀ n ∈ Pattern.dimNames planned.nest.outermost.pattern, n ∉ nesting.bound := by
    intro n hn
    obtain ⟨b, hb, hdim⟩ := Pattern.mem_dimNames.1 hn
    exact (hclosed.scope _ planned.nest.outermost_mem).regular b (List.mem_append_right _ hb) n hdim
  have hregular := hfinished.regular hsupply hclosed.regular
  refine ⟨Or.inr ⟨flat.prelude, _, k, rfl, hpattern, hregular, hprelude⟩, ?_, ?_⟩
  · -- The targets left behind stand at the same places as those of the nest.
    have hadded := hbuilds.added_regular (hbuilds.width_known_iff.1 hclosed.widths)
    rw [← Nesting.map_snd_levels hs.depth_eq, List.forall₂_map_left_iff]
    refine hadded.imp fun x t ht o ho => (ht o ho).imp_right fun hdims n hn => ?_
    exact hdims n (Ty.mem_dimNames.1 hn)
  · intro n hn hbound
    -- The computation of the width reads nothing of the nest, so it is the kernel that does.
    rcases Stm.mem_freeAll_append.1 hn with hn | ⟨hn, -⟩
    · obtain ⟨s₂, hs₂, hn⟩ := Stm.exists_of_mem_freeAll hn
      exact absurd hbound (hprelude s₂ hs₂ n hn)
    · rcases Stm.mem_free.1 (Stm.mem_freeAll_singleton.1 hn) with hfree | hdims
      · exact hclosed.mem_bound_of_finished hresults hbinders
          (fun hset => hbuilds.array_ne_index hs (hindex hset)) htotal hsupply hfinished hfree
          hbound
      · exact absurd hbound (hpattern n hdims)

end Distribute

/-! A kernel for the innermost statement reads the rows of a row, and a value that the body around
the inner map binds. The outer map left behind returns that value into a new array:

    map i < 2 (x <- xs):
      c = ...
      map j < 3 (z <- x):
        a = z + c
-/

namespace Increments

/-- The maps. -/
def nesting : Nesting :=
  ⟨[⟨.ofList [⟨"b", 7⟩, ⟨"c", 3⟩],
      ⟨[⟨⟨"ys", 8⟩, .array .i32 [.ofInt32 2, .ofInt32 3] false⟩], [], .ofInt32 2, ⟨"i", 1⟩,
        [⟨⟨⟨"x", 2⟩, .array .i32 [.ofInt32 3] false⟩, ⟨"xs", 0⟩⟩]⟩⟩],
    ⟨∅, ⟨[⟨⟨"b", 7⟩, .array .i32 [.ofInt32 3] false⟩], [], .ofInt32 3, ⟨"j", 4⟩,
      [⟨⟨⟨"z", 5⟩, .scalar .i32⟩, ⟨"x", 2⟩⟩]⟩⟩⟩

/-- What they produce. -/
def targets : Targets :=
  ⟨[[⟨⟨⟨"ys", 8⟩, .array .i32 [.ofInt32 2, .ofInt32 3] false⟩, .var ⟨"b", 7⟩⟩]],
    [⟨⟨⟨"b", 7⟩, .array .i32 [.ofInt32 3] false⟩, .var ⟨"a", 6⟩⟩]⟩

/-- The statement at the heart. -/
def stms : List Stm := [Stm.arith .add ⟨"a", 6⟩ .i32 (.var ⟨"z", 5⟩) (.var ⟨"c", 3⟩)]

/-- The attempt to move it. -/
def attempt : Attempt :=
  { supply := ⟨9⟩, scope := (∅ : Scope).insert ⟨⟨"c", 3⟩, .scalar .i32⟩ }

/-- Each map finds its width and its arrays around it, and what it produces has rows. -/
theorem nest_scoped : Scoped nesting targets 9 where
  depth_eq := rfl
  nodup := by decide
  arrays := by decide
  patterns := by decide
  tags_declared := by decide
  tags_free := by decide
  widths := by decide
  checks := by decide
  shapes := by decide
  outputs := by decide

end Increments

/-- Both statements that are moved out find what they need outside the maps. The array of `c` is the
one that is added. -/
theorem distribute_outside_increments :
    ∃ moved st', distribute { reduceKernels := false } Increments.nesting Increments.targets
        Increments.stms Increments.attempt = .ok moved st' ∧ moved.stms.length = 2 ∧
      moved.Outside Increments.nesting Increments.targets Increments.stms := by
  have hmoves : passes (fun moved => decide (moved.stms.length = 2))
      (distribute { reduceKernels := false } Increments.nesting Increments.targets Increments.stms
        Increments.attempt) = true := by
    decide +kernel
  obtain ⟨moved, st', h, hlen⟩ := exists_of_passes hmoves
  refine ⟨moved, st', h, of_decide_eq_true hlen,
    distribute_outside Increments.nest_scoped ?_ (fun _ => ?_) ?_ rfl h⟩
  · decide
  · decide
  · refine ⟨_, List.mem_singleton_self _, ?_⟩
    rintro n ⟨⟩
    decide

/-! A map that reads the index around it as an array leaves the index free in the kernel, whose own
index has another name:

    map i < 2:
      map j < 3 (x <- i):
        a = x + 1
-/

namespace IndexRows

/-- The maps. -/
def nesting : Nesting :=
  ⟨[⟨∅, ⟨[⟨⟨"ys", 0⟩, .array .i32 [.ofInt32 2, .ofInt32 3] false⟩], [], .ofInt32 2, ⟨"i", 1⟩, []⟩⟩],
    ⟨∅, ⟨[⟨⟨"b", 4⟩, .array .i32 [.ofInt32 3] false⟩], [], .ofInt32 3, ⟨"j", 2⟩,
      [⟨⟨⟨"x", 3⟩, .scalar .i32⟩, ⟨"i", 1⟩⟩]⟩⟩⟩

/-- What they produce. -/
def targets : Targets :=
  ⟨[[⟨⟨⟨"ys", 0⟩, .array .i32 [.ofInt32 2, .ofInt32 3] false⟩, .var ⟨"b", 4⟩⟩]],
    [⟨⟨⟨"b", 4⟩, .array .i32 [.ofInt32 3] false⟩, .var ⟨"a", 5⟩⟩]⟩

/-- The statement at the heart. -/
def stms : List Stm := [Stm.arith .add ⟨"a", 5⟩ .i32 (.var ⟨"x", 3⟩) (.ofInt32 1)]

/-- The attempt to move it. -/
def attempt : Attempt :=
  { supply := ⟨9⟩
    scope := (∅ : Scope).insertAll
      [⟨⟨"ys", 0⟩, .array .i32 [.ofInt32 2, .ofInt32 3] false⟩,
        ⟨⟨"b", 4⟩, .array .i32 [.ofInt32 3] false⟩] }

/-- These maps are well scoped, although the inner one reads an index as if it were an array. -/
theorem nest_scoped : Scoped nesting targets 9 where
  depth_eq := rfl
  nodup := by decide
  arrays := by decide
  patterns := by decide
  tags_declared := by decide
  tags_free := by decide
  widths := by decide
  checks := by decide
  shapes := by decide
  outputs := by decide

end IndexRows

/-- What is moved out of these maps still mentions the index of the outer one, which nothing outside
binds. -/
theorem distribute_escapes_index :
    Scoped IndexRows.nesting IndexRows.targets IndexRows.attempt.supply.next ∧
      (∀ t ∈ IndexRows.targets.toList, ∀ o ∈ t,
        IndexRows.attempt.scope.lookup? o.binder.name = some o.binder.ty) ∧
      (∀ s ∈ IndexRows.stms, s.exp.binders = []) ∧
      (∃ o ∈ IndexRows.targets.inner, ∀ n, o.value = .var n → n ∈ Stm.bound IndexRows.stms) ∧
      ∃ moved st', distribute { reduceKernels := false } IndexRows.nesting IndexRows.targets
          IndexRows.stms IndexRows.attempt = .ok moved st' ∧
        ⟨"i", 1⟩ ∈ Stm.freeAll moved.stms ∧ ⟨"i", 1⟩ ∈ IndexRows.nesting.bound ∧
        ⟨"i", 1⟩ ∉ Stm.bound IndexRows.stms := by
  have hescapes : passes (fun moved => decide (⟨"i", 1⟩ ∈ Stm.freeAll moved.stms))
      (distribute { reduceKernels := false } IndexRows.nesting IndexRows.targets IndexRows.stms
        IndexRows.attempt) = true := by
    decide +kernel
  obtain ⟨moved, st', h, hfree⟩ := exists_of_passes hescapes
  refine ⟨IndexRows.nest_scoped, by decide, by decide, ?_, moved, st', h, of_decide_eq_true hfree,
    by decide, by decide⟩
  refine ⟨_, List.mem_singleton_self _, ?_⟩
  rintro n ⟨⟩
  decide

end MapNest
