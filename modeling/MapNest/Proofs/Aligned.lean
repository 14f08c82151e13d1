import MapNest.Proofs.Distribute
import MapNest.Proofs.Nest.Accounts

/-!
# `MapNest.Proofs.Aligned`: outputs keep their places

The kernel of a nest computes one array for each output that is selected at the innermost level. All
levels list these arrays, and whoever reads the kernel takes what stands at one place at all levels
for the same array. A level put around others decides on an order of its own, and the levels inside
follow it (`Level.permute`). `Collects` says what an array of a level has to do with the array at
the same place one level further in: a row of the one is the other. `Arranges.collects` shows it of
any two levels, one around the other: it is so when the outer one is built, and every order put on
both later keeps it.

The body of the kernel finds the values that it yields by the names of the innermost level. They
come in the order of that level, and each output selected has a place of its own
(`Selection.yields_results`).
-/

set_option autoImplicit false

namespace MapNest

/-! ### What is computed -/

/-- An output is computed by some statements if it is not just the name of a value that they do not
bind. -/
def Output.Computed (stms : List Stm) (o : Output) : Prop :=
  ∀ n ∈ o.value.name?, n ∈ Stm.bound stms

instance {stms : List Stm} {o : Output} : Decidable (o.Computed stms) :=
  inferInstanceAs (Decidable (∀ n ∈ o.value.name?, n ∈ Stm.bound stms))

/-- An output is computed just if a name that it returns is bound by the statements. -/
theorem Output.computed_iff {stms : List Stm} {o : Output} :
    o.Computed stms ↔ ∀ n, o.value = .var n → n ∈ Stm.bound stms := by
  simp [Computed, Option.mem_def]

/-- What is selected is what the statements compute. -/
theorem Selection.inner_ofStms {targets : Targets} {stms : List Stm} :
    (ofStms targets stms).targets.inner = targets.inner.filter (·.Computed stms) := by
  refine List.filter_congr fun o _ => ?_
  obtain ⟨b, v⟩ := o
  cases v with
  | const c => rfl
  | var n =>
    have hcomputed : Output.Computed stms ⟨b, .var n⟩ ↔ n ∈ Stm.bound stms := by
      simp [Output.computed_iff]
    simp only [Output.passed?, decide_eq_decide.2 hcomputed]
    split
    · rename_i hn
      simpa using hn
    · rename_i hn
      simpa using hn

/-! ### From level to level -/

/-- An array of a map has the rows that are computed as an array further in: the map returns that
array into it, or nothing returns that array and this one is new. -/
inductive Collects (next : Nat) (e : Enclosing) (t : Target) (a b : Binder) : Prop
  /-- The map returned the array into this one all along. -/
  | returned (h : ⟨a, .var b.name⟩ ∈ t)
  /-- The map did not return the array, and this one was drawn for it. -/
  | drawn (hfresh : next ≤ a.name.tag) (hty : a.ty = b.ty.arrayOf e.level.width)
      (hnone : ∀ o ∈ t, o.value ≠ .var b.name)

/-- The outputs of a level, taken and new, collect the arrays at their positions. -/
theorem Division.Divides.collects {inner : Pattern} {t : Target} {d : Division} {new : List Taken}
    {e : Enclosing} {next mid top : Nat} (h : d.Divides inner t)
    (hnew : List.Forall₂ (fun x out => out.StandsFor e.level.width x) (d.untaken inner) new)
    (hdrawn : Drawn mid top (Pattern.names (new.map (·.binder)))) (hle : next ≤ mid)
    (hnodup : (Pattern.names inner).Nodup) :
    List.Forall₂ (Collects next e t) ((d.taken ++ new).map (·.binder))
      (Pattern.permute ((d.taken ++ new).map (·.position)) inner) := by
  rw [List.forall₂_map_left_iff, Pattern.permute, List.filterMap_map]
  refine forall₂_filterMap fun out hout => ?_
  rcases List.mem_append.1 hout with htaken | hout
  · obtain ⟨b, hb, hmem⟩ := h.taken out htaken
    exact ⟨b, hb, .returned hmem⟩
  · -- A new output stands for an array that no output takes.
    obtain ⟨x, hx, hposition, hty⟩ := exists_of_mem_right hnew hout
    have htag := hdrawn.2 _ (Pattern.mem_names.2 ⟨_, List.mem_map_of_mem hout, rfl⟩)
    refine ⟨x.1, ?_, .drawn (Nat.le_trans hle htag.1) hty (h.value_ne_of_mem_untaken hnodup hx)⟩
    show inner[out.position]? = some x.1
    rw [hposition]
    exact Division.Divides.getElem?_of_mem_untaken hx

namespace Arranges

variable {scope : Scope} {s : Selection} {bound : NameSet} {levels : List (Enclosing × Target)}
  {lo hi : Nat} {built : Built}

/-- The arrays of two levels, one around the other, stand at the places of their rows. -/
theorem collects (h : Arranges scope s bound levels lo hi built)
    (hnodup : ∀ x ∈ levels, (Pattern.names (Target.pattern x.2)).Nodup)
    (htags : ∀ x ∈ levels, ∀ o ∈ x.2, o.binder.name.tag < lo) {k : Nat} {e : Enclosing}
    {t : Target} {l l' : Level} (hk : levels[k]? = some (e, t))
    (hl : built.nest.toList[k]? = some l) (hl' : built.nest.toList[k + 1]? = some l') :
    List.Forall₂ (Collects lo e t) l.pattern l'.pattern := by
  induction h generalizing k l l' with
  | innermost => simp at hl'
  | @enclose within position e₀ t₀ built d new captures lo mid top hi hwithin hdivides hnew hdrawn
      hle hcloses hadded htyped ih =>
    have hwithin_nodup := fun x hx => hnodup x (List.mem_cons_of_mem _ hx)
    have hwithin_tags := fun x hx => htags x (List.mem_cons_of_mem _ hx)
    simp only [Stack.toList_pushOuter, Stack.toList_map, List.getElem?_cons_succ,
      List.getElem?_map] at hl hl'
    obtain ⟨inner', hinner', rfl⟩ := Option.map_eq_some_iff.1 hl'
    cases k with
    | zero =>
      -- The level inside is the outermost of those built before, put into the new order.
      cases hk
      cases hl
      obtain ⟨rest, hrest⟩ := built.nest.exists_toList_eq_cons
      rw [hrest] at hinner'
      cases hinner'
      refine hdivides.collects hnew hdrawn hwithin.builds.le ?_
      have hpos : 0 < within.length := hwithin.builds.depth_nest ▸ Nat.succ_pos _
      have hmem := List.getElem_mem hpos
      have hall := hwithin.nodup_outputsAt (List.getElem?_eq_getElem hpos) (hwithin_nodup _ hmem)
        (hwithin_tags _ hmem)
      rw [KernelNest.arraysAt_zero, Pattern.names_append] at hall
      exact (List.nodup_append.1 hall).2.1
    | succ k =>
      -- Both levels are put into the new order, and so what belongs together stays together.
      simp only [List.getElem?_cons_succ, List.getElem?_map] at hk hl
      obtain ⟨outer', houter', rfl⟩ := Option.map_eq_some_iff.1 hl
      exact Pattern.forall₂_permute (ih hwithin_nodup hwithin_tags hk houter' hinner') _

/-- The innermost level lists the arrays of what is selected. -/
theorem perm_inner (h : Arranges scope s bound levels lo hi built) :
    built.nest.inner.pattern.Perm (Target.pattern s.targets.inner) := by
  induction h with
  | innermost => exact .refl _
  | @enclose within position e t built d new captures lo mid top hi hwithin hdivides hnew _ _ _ _ _
      ih =>
    have horder := hdivides.perm_order hnew
    rw [hwithin.length_pattern _ built.nest.outermost_mem,
      ← hwithin.length_pattern _ built.nest.inner_mem] at horder
    exact (Pattern.permute_perm horder).trans ih

end Arranges

/-! ### What the kernel yields -/

/-- The values that go into the arrays of a pattern, set against an innermost target. -/
structure Yields (stms : List Stm) (t : Target) (p : Pattern) (values : List Operand) : Prop where
  /-- Into each array goes what the map returned into it. -/
  returned : List.Forall₂ (fun b v => ⟨b, v⟩ ∈ t) p values
  /-- Every output that is computed has one place. -/
  once : ∀ o ∈ t, o.Computed stms → ∃! k : Nat, p[k]? = some o.binder ∧ values[k]? = some o.value

/-- An array of a target belongs to one output. -/
theorem Target.eq_of_binder_eq {t : Target} (hnodup : (Pattern.names (Target.pattern t)).Nodup)
    {o o' : Output} (ho : o ∈ t) (ho' : o' ∈ t) (h : o.binder = o'.binder) : o = o' := by
  rw [Pattern.names, Target.pattern, List.map_map] at hnodup
  exact List.inj_on_of_nodup_map hnodup ho ho' (congrArg Binder.name h)

/-- What is returned into an array is found by the name of the array. -/
theorem Target.value?_of_mem {t : Target} (hnodup : (Pattern.names (Target.pattern t)).Nodup)
    {o : Output} (ho : o ∈ t) : t.value? o.binder.name = some o.value := by
  cases hfind : t.find? (·.binder.name = o.binder.name) with
  | none => exact absurd (decide_eq_true rfl) (List.find?_eq_none.1 hfind o ho)
  | some o' =>
    have hname : o'.binder.name = o.binder.name := by simpa using List.find?_some hfind
    rw [Pattern.names, Target.pattern, List.map_map] at hnodup
    have heq := List.inj_on_of_nodup_map hnodup (List.mem_of_find?_eq_some hfind) ho hname
    rw [Target.value?, hfind, heq, Option.map_some]

/-- The values come in the order of the innermost level. -/
theorem Selection.yields_results {targets : Targets} {stms : List Stm} {nest : KernelNest}
    (hperm : nest.inner.pattern.Perm
      (Target.pattern (Selection.ofStms targets stms).targets.inner))
    (hnodup : (Pattern.names (Target.pattern targets.inner)).Nodup) :
    Yields stms targets.inner nest.inner.pattern
      ((Selection.ofStms targets stms).results nest) := by
  have hsub : (ofStms targets stms).targets.inner.Sublist targets.inner := List.filter_sublist
  have hnodup_selected :
      (Pattern.names (Target.pattern (ofStms targets stms).targets.inner)).Nodup :=
    List.Nodup.sublist ((hsub.map _).map _) hnodup
  have hreturned : List.Forall₂ (fun b v => ⟨b, v⟩ ∈ targets.inner) nest.inner.pattern
      ((ofStms targets stms).results nest) := by
    refine forall₂_filterMap fun b hb => ?_
    obtain ⟨o, ho, rfl⟩ := List.mem_map.1 (hperm.subset hb)
    exact ⟨o.value, Target.value?_of_mem hnodup_selected ho, hsub.subset ho⟩
  refine ⟨hreturned, fun o ho hcomputed => ?_⟩
  have hmem : o.binder ∈ nest.inner.pattern := by
    refine hperm.symm.subset (List.mem_map_of_mem ?_)
    rw [inner_ofStms]
    exact List.mem_filter.2 ⟨ho, by simpa using hcomputed⟩
  obtain ⟨k, hk⟩ := List.getElem?_of_mem hmem
  refine ⟨k, ⟨hk, ?_⟩, fun k' hk' => ?_⟩
  · -- What the kernel yields there is returned into the same array, and so it is the same.
    have hplace := rel_getElem? hreturned k
    rw [hk] at hplace
    generalize ((ofStms targets stms).results nest)[k]? = v at hplace
    cases hplace with
    | some hv => rw [← Target.eq_of_binder_eq hnodup hv ho rfl]
  · -- No array is bound twice, so there is no other place.
    have hnodup_pattern : (Pattern.names nest.inner.pattern).Nodup :=
      ((List.Perm.map Binder.name hperm).nodup_iff).2 hnodup_selected
    have hposition := Pattern.position?_of_getElem? hnodup_pattern hk
    rw [Pattern.position?_of_getElem? hnodup_pattern hk'.1] at hposition
    exact Option.some.inj hposition

/-! ### The theorem -/

/-- The arrays of a kernel nest and the values that its kernel yields, set against the maps that the
nest was built for. -/
structure KernelNest.Aligned (nest : KernelNest) (nesting : Nesting) (targets : Targets)
    (stms : List Stm) (next : Nat) : Prop where
  /-- Every level has an array for each output that is computed. -/
  length : ∀ l ∈ nest.toList,
    l.pattern.length = (targets.inner.filter (·.Computed stms)).length
  /-- Arrays at the same place of two levels, one around the other, belong together. -/
  collects : ∀ (k : Nat) (e : Enclosing) (t : Target) (l l' : Level),
    (nesting.levels targets)[k]? = some (e, t) → nest.toList[k]? = some l →
    nest.toList[k + 1]? = some l' → List.Forall₂ (Collects next e t) l.pattern l'.pattern

/-- Outputs keep their places through all levels of a nest and in the body of its kernel. -/
theorem Selection.kernelNest_aligned {nesting : Nesting} {targets targets' : Targets}
    {stms : List Stm} {nest : KernelNest} {st st' : Attempt}
    (hnodup : ∀ t ∈ targets.toList, (Pattern.names (Target.pattern t)).Nodup)
    (htags : ∀ t ∈ targets.toList, ∀ o ∈ t, o.binder.name.tag < st.supply.next)
    (h : (Selection.ofStms targets stms).kernelNest nesting st = .ok (targets', nest) st') :
    nest.Aligned nesting targets stms st.supply.next ∧
      ∀ settings : Settings,
        settings.freshenKernels = false → settings.reduceKernels = false → stms ≠ [] →
        (st'.supply.next + nest.depth ≤ Supply.lastTag →
          ∃ moved st'', distribute settings nesting targets stms st = .ok moved st'') ∧
        ∀ moved st'', distribute settings nesting targets stms st = .ok moved st'' →
          ∃ prelude k, moved.stms = prelude ++ [⟨nest.outermost.pattern, .kernel k⟩] ∧
            Yields stms targets.inner nest.inner.pattern k.body.result := by
  obtain ⟨hdepth, demand, harranges⟩ := Selection.arranges_of_kernelNest_eq_ok h
  have hlevel : ∀ x ∈ nesting.levels targets, x.2 ∈ targets.toList := by
    intro x hx
    rw [← Nesting.map_snd_levels hdepth]
    exact List.mem_map_of_mem hx
  have hyields : ∀ results, results = (Selection.ofStms targets stms).results nest →
      Yields stms targets.inner nest.inner.pattern (Body.ofStms stms results).result := by
    rintro results rfl
    rw [Body.result_ofStms]
    exact Selection.yields_results harranges.perm_inner (hnodup _ targets.inner_mem)
  refine ⟨⟨fun l hl => ?_, fun k e t l l' hk hl hl' => ?_⟩, ?_⟩
  · rw [harranges.length_pattern l hl, inner_ofStms]
  · exact harranges.collects (fun x hx => hnodup _ (hlevel x hx))
      (fun x hx => htags _ (hlevel x hx)) hk hl hl'
  · intro settings hfreshen hreduce hne
    refine ⟨fun hsupply => ?_, fun moved st'' hmoved => ?_⟩
    · obtain ⟨flat, supply, hflat⟩ :=
        KernelNest.exists_flatten_eq_ok (hyields _ rfl).returned.length_eq.symm hsupply
      exact ⟨_, exists_distribute_eq_ok hfreshen hreduce hne h hflat⟩
    · rcases distribute_eq_ok hmoved with
        ⟨hnil, -⟩ | ⟨planned, s, flat, supply, kernel, s', hplan, hflat, hfinish, rfl⟩
      · exact absurd hnil hne
      obtain ⟨hnest, hresults⟩ := plan_eq_ok hplan
      -- The plan is the run at hand.
      rw [h] at hnest
      cases hnest
      obtain ⟨width, thread, s₁, -, -, -, hstm⟩ := KernelNest.flatten_eq_ok hflat
      rw [hstm] at hfinish
      obtain ⟨k, rfl, hfinished⟩ := finish_eq_ok hreduce hfinish
      cases hfinished with
      | same => exact ⟨flat.prelude, _, rfl, hyields _ hresults⟩
      | fresh hset => rw [hfreshen] at hset; cases hset

/-! Three maps, each of which returns what is inside in an order of its own. The outer one returns
only one of two arrays, and one output of the innermost map passes on a value:

    map i < 2:            xs <- q
      map j < 2:          p <- c, q <- b
        map k < 2:        b <- a, c <- d, e <- z
          a = i + k
          d = a + j
-/

namespace Reordered

/-- Integers in some dimensions, each of size two. -/
def cube (rank : Nat) : Ty := .array .i32 (List.replicate rank (.ofInt32 2)) false

/-- The maps. -/
def nesting : Nesting :=
  ⟨[⟨{⟨"z", 8⟩}, ⟨[⟨⟨"xs", 3⟩, cube 3⟩], [], .ofInt32 2, ⟨"i", 0⟩, []⟩⟩,
      ⟨∅, ⟨[⟨⟨"p", 4⟩, cube 2⟩, ⟨⟨"q", 5⟩, cube 2⟩], [], .ofInt32 2, ⟨"j", 1⟩, []⟩⟩],
    ⟨∅, ⟨[⟨⟨"b", 6⟩, cube 1⟩, ⟨⟨"c", 7⟩, cube 1⟩, ⟨⟨"e", 9⟩, cube 1⟩], [], .ofInt32 2, ⟨"k", 2⟩,
      []⟩⟩⟩

/-- What they produce. -/
def targets : Targets :=
  ⟨[[⟨⟨⟨"xs", 3⟩, cube 3⟩, .var ⟨"q", 5⟩⟩],
      [⟨⟨⟨"p", 4⟩, cube 2⟩, .var ⟨"c", 7⟩⟩, ⟨⟨⟨"q", 5⟩, cube 2⟩, .var ⟨"b", 6⟩⟩]],
    [⟨⟨⟨"b", 6⟩, cube 1⟩, .var ⟨"a", 10⟩⟩, ⟨⟨⟨"c", 7⟩, cube 1⟩, .var ⟨"d", 11⟩⟩,
      ⟨⟨⟨"e", 9⟩, cube 1⟩, .var ⟨"z", 8⟩⟩]⟩

/-- The statements at the heart. -/
def stms : List Stm :=
  [Stm.arith .add ⟨"a", 10⟩ .i32 (.var ⟨"i", 0⟩) (.var ⟨"k", 2⟩),
    Stm.arith .add ⟨"d", 11⟩ .i32 (.var ⟨"a", 10⟩) (.var ⟨"j", 1⟩)]

/-- The attempt to move them. -/
def attempt : Attempt := { supply := ⟨12⟩ }

end Reordered

/-- The arrays of these three levels correspond one to one in spite of the orders, and so does what
the kernel returns. -/
theorem Selection.kernelNest_aligned_reordered :
    ∃ targets' nest st', (Selection.ofStms Reordered.targets Reordered.stms).kernelNest
        Reordered.nesting Reordered.attempt = .ok (targets', nest) st' ∧
      nest.toList.map (fun l => Pattern.names l.pattern) =
        [[⟨"xs", 3⟩, ⟨"p_r", 12⟩], [⟨"q", 5⟩, ⟨"p", 4⟩], [⟨"b", 6⟩, ⟨"c", 7⟩]] ∧
      nest.Aligned Reordered.nesting Reordered.targets Reordered.stms 12 ∧
      ∃ moved st'' prelude k,
        distribute { freshenKernels := false, reduceKernels := false } Reordered.nesting
          Reordered.targets Reordered.stms Reordered.attempt = .ok moved st'' ∧
        moved.stms = prelude ++ [⟨nest.outermost.pattern, .kernel k⟩] ∧
        Yields Reordered.stms Reordered.targets.inner nest.inner.pattern k.body.result := by
  have hbuilds : passes (fun r => decide (r.2.toList.map (fun l => Pattern.names l.pattern) =
        [[⟨"xs", 3⟩, ⟨"p_r", 12⟩], [⟨"q", 5⟩, ⟨"p", 4⟩], [⟨"b", 6⟩, ⟨"c", 7⟩]]))
      ((Selection.ofStms Reordered.targets Reordered.stms).kernelNest Reordered.nesting
        Reordered.attempt) = true := by
    decide +kernel
  have hsupply : (stateOf ((Selection.ofStms Reordered.targets Reordered.stms).kernelNest
      Reordered.nesting Reordered.attempt)).supply.next = 13 := by
    decide +kernel
  obtain ⟨⟨targets', nest⟩, st', hnest, hnames⟩ := exists_of_passes hbuilds
  have hnames := of_decide_eq_true hnames
  obtain ⟨haligned, hmoves⟩ := Selection.kernelNest_aligned (by decide) (by decide) hnest
  obtain ⟨hsucceeds, hyields⟩ :=
    hmoves { freshenKernels := false, reduceKernels := false } rfl rfl (by decide)
  have hdepth : nest.depth = 3 := by simpa using congrArg List.length hnames
  rw [hnest] at hsupply
  have htags : st'.supply.next + nest.depth ≤ Supply.lastTag := by
    rw [hdepth, show st'.supply.next = 13 from hsupply]
    decide
  obtain ⟨moved, st'', hmoved⟩ := hsucceeds htags
  obtain ⟨prelude, k, hstms, hk⟩ := hyields moved st'' hmoved
  exact ⟨targets', nest, st', hnest, hnames, haligned, moved, st'', prelude, k, hmoved, hstms, hk⟩

end MapNest
