import MapNest.Proofs.Distinct
import MapNest.Proofs.Nest.Typed

/-!
# `MapNest.Proofs.Typed`: a kernel has the shapes that its surroundings expect

A kernel stands in front of the nest that its statements were moved out of. What it produces was
produced by the maps, and what it reads is an array from outside or one that the outermost map left
behind returns. `distribute_typed` says that the shapes agree on both sides, whatever is handed in
from level to level: results have the widths of all maps in front, and the part of an array that is
read at some indices has the shape of the parameter.
-/

set_option autoImplicit false

namespace MapNest

/-- What an attempt is given is well typed: the maps and their targets are, and an output that is
computed has a row for each iteration of the innermost map. -/
structure Attempt.WellTyped (st : Attempt) (nesting : Nesting) (targets : Targets)
    (stms : List Stm) : Prop where
  levels : TypedLevels st.scope st.scope.lookup? (nesting.levels targets)
  computed : ∀ o ∈ targets.inner, o.Computed stms →
    o.binder.ty.outerDim? = some nesting.inner.level.width

section Typed

variable {settings : Settings} {nesting : Nesting} {targets targets' : Targets} {stms : List Stm}
  {st st' : Attempt} {nest : KernelNest} {n : Name}

/-- Maps that bind no name twice are settled. -/
theorem Attempt.Distinct.settled (hd : st.Distinct nesting targets stms) :
    Settled (nesting.levels targets) st.supply.next where
  toApart := hd.apart
  params := by
    refine EachLevel.of_forall fun outer e t within hl n hn => ?_
    refine Level.input?_eq_none_iff.2 fun i hi hname => ?_
    have hk : nesting.toList[outer.length]? = some e := by
      rw [← Nesting.map_fst_levels hd.depth_eq, hl]
      simp
    have hparam : n ∈ e.names := Enclosing.mem_names.2 (Enclosing.mem_bound.2
      (Or.inr (Level.mem_bound.2 (Or.inr ⟨i, hi, hname⟩))))
    obtain ⟨y, hy, hn⟩ := List.mem_flatMap.1 hn
    rcases List.mem_append.1 hn with harray | hinner
    · -- The body around a map may bind its arrays, but not as parameters.
      obtain ⟨j, hj⟩ := List.getElem?_of_mem hy
      have htarget : targets.toList[outer.length + 1 + j]? = some y.2 := by
        rw [← Nesting.map_snd_levels hd.depth_eq, hl, List.map_append, List.getElem?_append_right]
        · simp [hj, show outer.length + 1 + j - outer.length = j + 1 by omega]
        · simp
          omega
      have hlet := (hd.bodies (e, outer.length) (List.mem_zipIdx_iff_getElem?.2 hk)
        (y.2, outer.length + 1 + j) (List.mem_zipIdx_iff_getElem?.2 htarget) n harray hparam).2
      exact hd.not_mem_letBound (List.mem_of_getElem? hk) hi (hname ▸ hlet)
    · have hnames := hd.apart.names
      rw [hl, List.flatMap_append, List.flatMap_cons] at hnames
      have hown := (List.nodup_append.1 (List.nodup_append.1 hnames).2.1).2.2
      exact hown n hparam n (List.mem_flatMap.2 ⟨y, hy, hinner⟩) rfl
  inputs x hx r hr := by
    refine hd.tags _ (List.mem_append_left _ (Attempt.mem_occurring hd.depth_eq hx (Or.inl ?_)))
    exact List.mem_append_left _ (Level.mentions_array hr).mem_occurring
  values x hx o ho n hvalue := by
    refine hd.tags _ (List.mem_append_left _ (Attempt.mem_occurring hd.depth_eq hx (Or.inr ?_)))
    exact List.mem_append_left _ (Target.mem_untyped.2 ⟨o, ho, Or.inr hvalue⟩)

/-- The arrays that well-typed maps produce have their types in scope. -/
theorem TypedLevels.patterns {scope : Scope} {types : Name → Option Ty}
    {levels : List (Enclosing × Target)} (h : TypedLevels scope types levels) :
    ∀ x ∈ levels, ∀ o ∈ x.2, scope.lookup? o.binder.name = some o.binder.ty := by
  induction levels generalizing types with
  | nil => exact fun x hx => absurd hx List.not_mem_nil
  | cons x within ih => exact List.forall_mem_cons.2 ⟨h.1.patterns, ih h.2⟩

section Run

variable (hd : st.Distinct nesting targets stms) (ht : st.WellTyped nesting targets stms)
  (h : (Selection.ofStms targets stms).kernelNest nesting st = .ok (targets', nest) st')

include hd ht h

/-- The arrays of the kernel range over all levels. -/
theorem Attempt.WellTyped.pattern :
    List.Forall₂
      (fun a b => a.ty.dims = nesting.toList.map (·.level.width) ++ b.ty.dims.drop 1)
      nest.outermost.pattern nest.inner.pattern := by
  obtain ⟨-, demand, harranges⟩ := Selection.arranges_of_kernelNest_eq_ok h
  have hlater := Selection.later_of_kernelNest_eq_ok h
  have hwidths : nesting.toList.map (·.level.width)
      = (nesting.levels targets).map (·.1.level.width) := by
    rw [← Nesting.map_fst_levels hd.depth_eq, List.map_map]
    rfl
  rw [hwidths]
  refine harranges.typed_pattern _ (ht.levels.later hd.settled hlater.types hlater.types)
    hd.settled fun outer y hy o ho => ?_
  have hlast := congrArg List.getLast? hy
  rw [Nesting.levels, List.getLast?_concat, List.getLast?_concat, Option.some.injEq] at hlast
  rw [Selection.inner_ofStms, List.mem_filter] at ho
  rw [← hlast]
  exact ht.computed o ho.1 (by simpa using ho.2)

/-- What the kernel reads has the type of an array that the outermost map left behind returns, or
else the type that it had before. -/
theorem Attempt.WellTyped.inputs {i : KernelInput} (hi : i ∈ Level.flattenAll nest.toList) :
    i.Fits (Target.typeOf st.scope targets'.outermost) nest.space := by
  obtain ⟨-, demand, harranges⟩ := Selection.arranges_of_kernelNest_eq_ok h
  have hlater := Selection.later_of_kernelNest_eq_ok h
  have hlevels := ht.levels.later hd.settled hlater.types hlater.types
  obtain ⟨⟨axes, hsub, hindices, hdims⟩, hnew⟩ := harranges.typed_inputs _ hlevels hd.settled
    ⟨fun _ _ => rfl, fun _ _ => rfl⟩ i hi
  refine ⟨axes, hsub, hindices, ?_⟩
  rw [← hdims]
  refine congrArg (Option.map Ty.dims) ?_
  unfold Target.typeOf
  split
  · rename_i b hb
    obtain ⟨o, ho, rfl⟩ := List.mem_map.1 (List.mem_of_find?_eq_some hb)
    have hname : o.binder.name = i.array := by simpa using List.find?_some hb
    -- The array was returned before, or it is new; either way it has its type in scope.
    obtain ⟨x, hx, horigin⟩ := exists_of_mem_right harranges.builds.outputs_origin
      targets'.outermost_mem
    rw [← hname]
    rcases horigin o ho with hold | htag
    · exact (hlevels.patterns x hx o hold).symm
    · exact (harranges.lookup_of_new hd.apart.tags _ targets'.outermost_mem o ho htag.1).symm
  · rename_i hnone
    refine (hlater.types _ (Nat.lt_of_not_le fun hle => ?_)).symm
    obtain ⟨o, ho, hname⟩ := Target.mem_names_pattern.1 (hnew hle)
    exact List.find?_eq_none.1 hnone _ (List.mem_map_of_mem ho) (decide_eq_true hname)

end Run

/-- A kernel that is made of well typed statements is well typed: its arrays have the widths of all
maps, the outermost first, in front of the types that its body returns; and every input is read at
some of the kernel's indices, in their order, from an array that has the sizes of these dimensions
in front of the shape of the parameter. Arrays are those that the outermost map left behind returns
or else were there before. -/
theorem distribute_typed {moved : Moved} (hd : st.Distinct nesting targets stms)
    (ht : st.WellTyped nesting targets stms) (hfreshen : settings.freshenKernels = false)
    (hreduce : settings.reduceKernels = false)
    (h : distribute settings nesting targets stms st = .ok moved st') :
    (stms = [] ∧ moved.stms = []) ∨
      ∃ prelude p k, moved.stms = prelude ++ [⟨p, .kernel k⟩] ∧
        k.space.map (·.size) = nesting.toList.map (·.level.width) ∧
        List.Forall₂ (fun b o => b.ty.dims = k.space.map (·.size) ++ o.ty.dims) p k.returns ∧
        ∀ i ∈ k.inputs, i.Fits (Target.typeOf st.scope moved.targets.outermost) k.space := by
  rcases distribute_eq_ok h with
    ⟨rfl, rfl⟩ | ⟨planned, s, flat, supply, kernel, s', hplan, hflat, hfinish, rfl⟩
  · exact Or.inl ⟨rfl, rfl⟩
  obtain ⟨hnest, -⟩ := plan_eq_ok hplan
  obtain ⟨width, thread, s₁, -, -, -, hstm⟩ := KernelNest.flatten_eq_ok hflat
  rw [hstm] at hfinish
  obtain ⟨k, rfl, hfinished⟩ := finish_eq_ok hreduce hfinish
  cases hfinished with
  | fresh hset =>
    rw [hfreshen] at hset
    cases hset
  | same =>
    obtain ⟨-, demand, harranges⟩ := Selection.arranges_of_kernelNest_eq_ok hnest
    have hsizes : planned.nest.space.map (·.size) = nesting.toList.map (·.level.width) := by
      rw [← Nesting.map_fst_levels hd.depth_eq, KernelNest.space, List.map_map, List.map_map]
      exact (map_eq_map_of_forall₂ harranges.builds.forall₂ fun _ _ _ _ hxl => hxl.2.symm).symm
    refine Or.inr ⟨flat.prelude, _, _, rfl, hsizes, ?_, fun i hi => ?_⟩
    · show List.Forall₂ _ _ (planned.nest.inner.pattern.map _)
      rw [List.forall₂_map_right_iff]
      refine (ht.pattern hd hnest).imp fun b a hba => ?_
      show b.ty.dims = planned.nest.space.map (·.size) ++ a.ty.row.dims
      rw [hsizes, Ty.row, Ty.dims_dropDims, hba]
    · exact ht.inputs hd hnest (KernelNest.mem_inputs_kernel.1 hi).1

end Typed

/-! Two maps. The moved statements read `x`, a row of a row; `y`, which the inner map returns into
`ys` already; and `c`, which the outer map computes:

    map i < 2 (xs <- xss):      zss <- zs
      c = i
      map j < 3 (x <- xs):      zs <- b, ys <- y
        y = x
        b = y + c

The kernel reads `y` from an array over both maps and `c` from one over the outer map, both new. -/

namespace Handed

/-- Integers in some dimensions. -/
def ints (dims : List Int32) : Ty := .array .i32 (dims.map .ofInt32) false

/-- The maps. -/
def nesting : Nesting :=
  ⟨[⟨.ofList [⟨"c", 3⟩, ⟨"zs", 4⟩, ⟨"ys", 10⟩],
      ⟨[⟨⟨"zss", 0⟩, ints [2, 3]⟩], [], .ofInt32 2, ⟨"i", 1⟩,
        [⟨⟨⟨"xs", 2⟩, ints [3]⟩, ⟨"xss", 9⟩⟩]⟩⟩],
    ⟨.ofList [⟨"y", 8⟩, ⟨"b", 7⟩],
      ⟨[⟨⟨"zs", 4⟩, ints [3]⟩, ⟨⟨"ys", 10⟩, ints [3]⟩], [], .ofInt32 3, ⟨"j", 5⟩,
        [⟨⟨⟨"x", 6⟩, .scalar .i32⟩, ⟨"xs", 2⟩⟩]⟩⟩⟩

/-- What they produce. -/
def targets : Targets :=
  ⟨[[⟨⟨⟨"zss", 0⟩, ints [2, 3]⟩, .var ⟨"zs", 4⟩⟩]],
    [⟨⟨⟨"zs", 4⟩, ints [3]⟩, .var ⟨"b", 7⟩⟩, ⟨⟨⟨"ys", 10⟩, ints [3]⟩, .var ⟨"y", 8⟩⟩]⟩

/-- The statements that are moved. -/
def stms : List Stm :=
  [Stm.arith .add ⟨"a", 11⟩ .i32 (.var ⟨"y", 8⟩) (.var ⟨"c", 3⟩),
    Stm.arith .add ⟨"b", 7⟩ .i32 (.var ⟨"a", 11⟩) (.var ⟨"x", 6⟩)]

/-- The attempt to move them. -/
def attempt : Attempt :=
  { supply := ⟨12⟩
    scope := (∅ : Scope).insertAll [⟨⟨"xss", 9⟩, ints [2, 3]⟩, ⟨⟨"zss", 0⟩, ints [2, 3]⟩,
      ⟨⟨"zs", 4⟩, ints [3]⟩, ⟨⟨"ys", 10⟩, ints [3]⟩, ⟨⟨"c", 3⟩, .scalar .i32⟩,
      ⟨⟨"y", 8⟩, .scalar .i32⟩, ⟨⟨"b", 7⟩, .scalar .i32⟩] }

/-- What a kernel reads. -/
def reads : Exp → List (Name × Name × List Operand)
  | .kernel k => k.inputs.map fun i => (i.param.name, i.array, i.indices)
  | _ => []

/-- No two names that these maps and statements bind agree. -/
theorem distinct : attempt.Distinct nesting targets stms := by
  constructor <;> decide +kernel

/-- The parameters are rows of their arrays, and each array has the width of its map in front of
what is returned into it. -/
theorem wellTyped : attempt.WellTyped nesting targets stms where
  levels := ⟨⟨by decide +kernel, by decide +kernel, by decide +kernel⟩,
    ⟨by decide +kernel, by decide +kernel, by decide +kernel⟩, trivial⟩
  computed := by decide +kernel

end Handed

/-- The kernel reads `c`, `x` and `y` at the indices of the maps they belong to, each from an array
with those dimensions in front. -/
theorem distribute_typed_handed :
    ∃ moved st' prelude p k,
      distribute { freshenKernels := false, reduceKernels := false } Handed.nesting
        Handed.targets Handed.stms Handed.attempt = .ok moved st' ∧
      moved.stms = prelude ++ [⟨p, .kernel k⟩] ∧
      k.inputs.map (fun i => (i.param.name, i.array, i.indices)) =
        [(⟨"c", 3⟩, ⟨"c_r", 12⟩, [.var ⟨"i", 1⟩]),
          (⟨"x", 6⟩, ⟨"xss", 9⟩, [.var ⟨"i", 1⟩, .var ⟨"j", 5⟩]),
          (⟨"y", 8⟩, ⟨"ys_r", 13⟩, [.var ⟨"i", 1⟩, .var ⟨"j", 5⟩])] ∧
      k.space.map (·.size) = [.ofInt32 2, .ofInt32 3] ∧
      List.Forall₂ (fun b o => b.ty.dims = k.space.map (·.size) ++ o.ty.dims) p k.returns ∧
      ∀ i ∈ k.inputs,
        i.Fits (Target.typeOf Handed.attempt.scope moved.targets.outermost) k.space := by
  have hmoves : passes (fun moved => decide (moved.stms.getLast?.map (fun s => Handed.reads s.exp) =
        some [(⟨"c", 3⟩, ⟨"c_r", 12⟩, [.var ⟨"i", 1⟩]),
          (⟨"x", 6⟩, ⟨"xss", 9⟩, [.var ⟨"i", 1⟩, .var ⟨"j", 5⟩]),
          (⟨"y", 8⟩, ⟨"ys_r", 13⟩, [.var ⟨"i", 1⟩, .var ⟨"j", 5⟩])]))
      (distribute { freshenKernels := false, reduceKernels := false } Handed.nesting
        Handed.targets Handed.stms Handed.attempt) = true := by
    decide +kernel
  obtain ⟨moved, st', h, htest⟩ := exists_of_passes hmoves
  rcases distribute_typed Handed.distinct Handed.wellTyped rfl rfl h with
    ⟨hnil, -⟩ | ⟨prelude, p, k, hstms, hsizes, hreturns, hinputs⟩
  · cases hnil
  rw [hstms, List.getLast?_concat] at htest
  have hreads := Option.some.inj (of_decide_eq_true htest)
  exact ⟨moved, st', prelude, p, k, h, hstms, hreads, hsizes, hreturns, hinputs⟩

end MapNest
