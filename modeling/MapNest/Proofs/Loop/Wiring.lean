import MapNest.Proofs.Aligned
import MapNest.Proofs.Loop.Interchange

/-!
# `MapNest.Proofs.Loop.Wiring`: which value of a loop ends up where

A loop that is moved out of a nest returns an array for each output at the heart of the nest. On the
way three lists name the same values in three orders: the carried values of the loop, the values it
returns, and the arrays of each level. `interchange_wires` says that they stay in step. What the
loop outside returns into the array at some place is the carried value that the original loop
returned into the name at the end of the way inward from that array.

The proof follows a loop past the levels. `LoopStm.Rewires` says of two loops that what one returns
at a place, the other does too, values being told by their position among the carried ones.
Selecting what the innermost level wants fixes the places (`LoopStm.select?_eq_some`), one level
keeps them (`Crosses.rewires`), and so do all levels (`CrossesAll.rewires`). The orders that the
levels agree on among themselves are the subject of `MapNest.Proofs.Aligned`.
-/

set_option autoImplicit false

namespace MapNest

/-- The type of arrays with some outer sizes, the first one outermost. -/
def Ty.arrayOfAll (widths : List Operand) (ty : Ty) : Ty := widths.foldr Ty.arrayOf ty

namespace LoopStm

/-- What a loop returns at a place, another one does too. Each of them may have names of its own for
the carried values, whose order is the same. -/
def Rewires (l l' : LoopStm) : Prop :=
  ∀ (p m : Nat) (n : Name), l.loop.ret[p]? = some n → l.loop.names[m]? = some n →
    ∃ n', l'.loop.ret[p]? = some n' ∧ l'.loop.names[m]? = some n'

variable {l l' : LoopStm} {level : Level} {levels : List Level} {lo hi : Nat}
  {out : Interchanged}

/-- A loop returns what it returns. -/
theorem Rewires.refl : l.Rewires l := fun _ _ n hret hnames => ⟨n, hret, hnames⟩

/-- What stays in step on two stretches stays in step on both together. -/
theorem Rewires.trans {l'' : LoopStm} (h : l.Rewires l') (h' : l'.Rewires l'') : l.Rewires l'' := by
  intro p m n hret hnames
  obtain ⟨n', hret', hnames'⟩ := h p m n hret hnames
  exact h' p m n' hret' hnames'

/-! ### Past the levels -/

/-- A loop that leaves a level returns the values it returned. -/
theorem Crosses.rewires (h : Crosses level l lo hi out) (hnodup : l.loop.names.Nodup) :
    l.Rewires out.loop := by
  intro p m n hret hnames
  cases h with
  | @intro index bound widened handed results ret a b _ _ hwidened _ _ _ _ _ hreturned _ _ =>
    -- The value returned was looked up by its name, which only one carried value has.
    have hplace := rel_getElem? hreturned p
    rw [hret] at hplace
    cases hret' : ret[p]? with
    | none => rw [hret'] at hplace; cases hplace
    | some n' =>
      rw [hret'] at hplace
      cases hplace with
      | some hfound =>
      obtain ⟨w, hfind, rfl⟩ := hfound
      have hinside := Level.names_inside hwidened
      rw [← hinside, List.getElem?_map] at hnames
      obtain ⟨v, hv, hname⟩ := Option.map_eq_some_iff.1 hnames
      have hw : w.inside.param.name = n := by simpa using List.find?_some hfind
      rw [← hinside] at hnodup
      obtain rfl : v = w := List.inj_on_of_nodup_map hnodup (List.mem_of_getElem? hv)
        (List.mem_of_find?_eq_some hfind) (hname.trans hw.symm)
      have hnames' : (l.outside level widened handed results ret).loop.names
          = widened.map (·.outside.param.name) := List.map_map ..
      refine ⟨_, hret', ?_⟩
      rw [hnames', List.getElem?_map, hv, Option.map_some]

/-- A loop that leaves some levels returns the values it returned. -/
theorem CrossesAll.rewires (h : CrossesAll l levels lo hi out) (hnodup : l.loop.names.Nodup) :
    l.Rewires out.loop ∧ out.loop.loop.names.Nodup := by
  -- A loop that has left a level has new names for its values, and these are distinct.
  induction h with
  | nil => exact ⟨.refl, hnodup⟩
  | cons _ houter ih => exact ⟨ih.1.trans (houter.rewires ih.2), houter.drawn_names.nodup⟩

/-- On its way past a level each carried value gets the width of the level as its outer dimension.
-/
theorem Crosses.types (h : Crosses level l lo hi out) :
    out.loop.loop.merge.map (·.param.ty)
      = l.loop.merge.map fun m => m.param.ty.arrayOf level.width := by
  obtain ⟨widened, hwidened, hmerge, -⟩ := h.exists_widened
  rw [hmerge, List.map_map]
  refine (map_eq_map_of_forall₂ hwidened fun m _ w _ hw => ?_).symm
  cases hw with
  | reuse _ hty => exact hty.symm
  | replicate _ hty _ => exact hty.symm

/-- Each carried value gets an outer dimension for every level left. -/
theorem CrossesAll.types (h : CrossesAll l levels lo hi out) :
    out.loop.loop.merge.map (·.param.ty)
      = l.loop.merge.map fun m => m.param.ty.arrayOfAll (levels.map (·.width)) := by
  induction h with
  | nil => rfl
  | @cons level rest inner out lo mid hi _ houter ih =>
    have hrows := congrArg (List.map (Ty.arrayOf level.width)) ih
    rw [List.map_map, List.map_map] at hrows
    exact houter.types.trans hrows

/-- No level changes how often the loop runs. -/
theorem CrossesAll.form_eq (h : CrossesAll l levels lo hi out) :
    out.loop.loop.form = l.loop.form := by
  induction h with
  | nil => rfl
  | cons _ houter ih => exact houter.form_eq.trans ih

/-- What stands in front of a loop that has left some levels are replications. -/
theorem CrossesAll.replicates (h : CrossesAll l levels lo hi out) :
    ∀ s ∈ out.prelude, ∃ b count v, s = Stm.replicate b count v := by
  induction h with
  | nil => simp
  | cons _ houter ih =>
    intro s hs
    rcases List.mem_append.1 hs with hs | hs
    · exact ih s hs
    · obtain ⟨m, -, w, hw, hs⟩ := houter.exists_of_mem_prelude hs
      cases hw with
      | reuse => cases hs
      | replicate => exact ⟨_, _, _, List.mem_singleton.1 hs⟩

end LoopStm

/-! ### The theorem -/

/-- A loop that stands outside a nest, set against the loop at its heart: `widths` are the widths of
the nest, `innermost` its arrays at the heart, and `target` what is returned into them there. -/
structure LoopStm.Wired (l : LoopStm) (widths : List Operand) (target : Target)
    (innermost : Pattern) (out : LoopStm) : Prop where
  /-- It counts as it did, with the same index up to the same bound. -/
  form : ∃ index bound, l.loop.form = .forBelow index bound ∧
    out.loop.form = .forBelow index bound
  /-- It carries the same values in the same order, each with a dimension for every level. -/
  types : out.loop.merge.map (·.param.ty) = l.loop.merge.map fun m => m.param.ty.arrayOfAll widths
  /-- No two carried values have one name. -/
  nodup : out.loop.names.Nodup
  /-- It returns a value for each array. -/
  length : out.loop.ret.length = out.pattern.length
  /-- The value returned at a place is the carried one that the loop at the heart returned into the
  name that goes into the array there. -/
  returns : ∀ p < out.pattern.length, ∃ (a b : Binder) (n n' : Name) (q m : Nat),
    innermost[p]? = some a ∧ ⟨a, .var b.name⟩ ∈ target ∧ l.pattern[q]? = some b ∧
      l.loop.ret[q]? = some n ∧ l.loop.names[m]? = some n ∧
      out.loop.ret[p]? = some n' ∧ out.loop.names[m]? = some n'

/-- A successful run puts the arrays of all levels in step. -/
theorem Selection.aligned_of_kernelNest_eq_ok {nesting : Nesting} {targets targets' : Targets}
    {stms : List Stm} {nest : KernelNest} {st st' : Attempt}
    (hnodup : ∀ t ∈ targets.toList, (Pattern.names (Target.pattern t)).Nodup)
    (htags : ∀ t ∈ targets.toList, ∀ o ∈ t, o.binder.name.tag < st.supply.next)
    (h : (Selection.ofStms targets stms).kernelNest nesting st = .ok (targets', nest) st') :
    nest.Aligned nesting targets stms st.supply.next := by
  obtain ⟨hdepth, demand, harranges⟩ := Selection.arranges_of_kernelNest_eq_ok h
  have hlevel : ∀ x ∈ nesting.levels targets, x.2 ∈ targets.toList := fun x hx =>
    (Nesting.mem_of_mem_levels hdepth hx).2
  refine ⟨fun l hl => ?_, fun k e t l l' hk hl hl' => ?_⟩
  · rw [harranges.length_pattern l hl, inner_ofStms]
  · exact harranges.collects (fun x hx => hnodup _ (hlevel x hx))
      (fun x hx => htags _ (hlevel x hx)) hk hl hl'

/-- The levels built have the widths of the maps. -/
theorem Builds.widths_eq {s : Selection} {nesting : Nesting} {targets : Targets} {lo hi : Nat}
    {built : Built} (h : Builds s nesting.bound (nesting.levels targets) lo hi built)
    (hdepth : nesting.depth = targets.depth) :
    built.nest.toList.map (·.width) = nesting.toList.map (·.level.width) := by
  rw [← Nesting.map_fst_levels hdepth, List.map_map]
  exact (map_eq_map_of_forall₂ h.forall₂ fun x _ l _ hl => hl.2.symm).symm

/-- A loop that is moved out of a nest returns into each array of the outermost level the carried
value whose rows belong there. -/
theorem interchange_wires {settings : Settings} {nesting : Nesting} {targets : Targets}
    {l : LoopStm} {moved : Moved} {st st' : Attempt} (hnames : l.loop.names.Nodup)
    (hret : ∀ n ∈ l.loop.ret, n ∈ l.loop.names)
    (hnodup : ∀ t ∈ targets.toList, (Pattern.names (Target.pattern t)).Nodup)
    (htags : ∀ t ∈ targets.toList, ∀ o ∈ t, o.binder.name.tag < st.supply.next)
    (h : interchange settings nesting targets l.toStm st = .ok moved st') :
    ∃ (nest : KernelNest) (s : Attempt) (replicates : List Stm) (out : LoopStm),
      (Selection.ofStms targets [l.toStm]).kernelNest nesting st = .ok (moved.targets, nest) s ∧
      nest.Aligned nesting targets [l.toStm] st.supply.next ∧
      moved.stms = replicates ++ [out.toStm] ∧
      (∀ r ∈ replicates, ∃ b count v, r = Stm.replicate b count v) ∧
      out.pattern = nest.outermost.pattern ∧
      l.Wired (nesting.toList.map (·.level.width)) targets.inner nest.inner.pattern out := by
  obtain ⟨l₀, l', planned, s, hl₀, hplan, hselect, hall, htargets⟩ := interchange_eq_ok h
  rw [LoopStm.ofStm?_toStm] at hl₀
  cases hl₀
  obtain ⟨hnest, hresults⟩ := plan_eq_ok hplan
  rw [hresults] at hselect
  obtain ⟨hdepth, demand, harranges⟩ := Selection.arranges_of_kernelNest_eq_ok hnest
  obtain ⟨out, hcrosses, hstms⟩ := LoopStm.crossesAll_of_interchangeAll_eq_ok hall
  obtain ⟨ret, hloop⟩ := LoopStm.loop_of_select?_eq_some hselect
  have hnames' : l'.loop.names = l.loop.names := by rw [hloop]; rfl
  obtain ⟨hrewires, hfresh⟩ := hcrosses.rewires (hnames'.symm ▸ hnames)
  -- The nest has an outermost level, and the loop leaves that one last.
  obtain ⟨rest, hlevels⟩ := planned.nest.exists_toList_eq_cons
  obtain ⟨hpattern, hlength⟩ := (hlevels ▸ hcrosses).pattern
  have hform : ∃ index bound, l'.loop.form = .forBelow index bound := by
    rw [hlevels] at hcrosses
    cases hcrosses with
    | cons hinner houter =>
      cases houter with
      | intro hform => exact ⟨_, _, hinner.form_eq ▸ hform⟩
  obtain ⟨index, bound, hform⟩ := hform
  refine ⟨planned.nest, s, out.prelude, out.loop, htargets ▸ hnest,
    Selection.aligned_of_kernelNest_eq_ok hnodup htags hnest, hstms, hcrosses.replicates, hpattern,
    ⟨⟨index, bound, ?_, hcrosses.form_eq.trans hform⟩, ?_, hfresh, ?_, ?_⟩⟩
  · rw [hloop] at hform
    exact hform
  · have htypes := hcrosses.types
    rw [harranges.builds.widths_eq hdepth, hloop] at htypes
    exact htypes
  · rw [hlength, hpattern]
  · intro p hp
    -- All levels have as many arrays, so there is one at this place in the innermost one.
    have hp' : p < planned.nest.inner.pattern.length := by
      rw [harranges.length_pattern _ planned.nest.inner_mem,
        ← harranges.length_pattern _ planned.nest.outermost_mem, ← hpattern]
      exact hp
    have hyields := Selection.yields_results harranges.perm_inner (hnodup _ targets.inner_mem)
    have hplace := rel_getElem? hyields.returned p
    rw [List.getElem?_eq_getElem hp'] at hplace
    generalize hv : ((Selection.ofStms targets [l.toStm]).results planned.nest)[p]? = v at hplace
    cases hplace with
    | @some _ v hreturned =>
    obtain ⟨b, n, q, rfl, hb, hn, hselected⟩ := LoopStm.select?_eq_some hselect hv
    obtain ⟨m, hm⟩ := List.getElem?_of_mem (hret n (List.mem_of_getElem? hn))
    obtain ⟨n', hret', hnames'⟩ := hrewires p m n hselected (hnames'.symm ▸ hm)
    exact ⟨_, b, n, n', q, m, List.getElem?_eq_getElem hp', hreturned, hb, hn, hm, hret', hnames'⟩

/-! Two maps that each return what is inside in the other order, around a loop that carries two
values:

    map i < 2:                  p <- v, q <- u
      map j < 3:                u <- a, v <- b
        a, b = loop (x = 0, y = 1) for k < 5:
          yield (y, x)
-/

namespace Crossed

/-- Integers in some dimensions. -/
def ints (dims : List Int32) : Ty := .array .i32 (dims.map .ofInt32) false

/-- The maps. -/
def nesting : Nesting :=
  ⟨[⟨∅, ⟨[⟨⟨"p", 4⟩, ints [2, 3]⟩, ⟨⟨"q", 5⟩, ints [2, 3]⟩], [], .ofInt32 2, ⟨"i", 0⟩, []⟩⟩],
    ⟨∅, ⟨[⟨⟨"u", 2⟩, ints [3]⟩, ⟨⟨"v", 3⟩, ints [3]⟩], [], .ofInt32 3, ⟨"j", 1⟩, []⟩⟩⟩

/-- What they produce. -/
def targets : Targets :=
  ⟨[[⟨⟨⟨"p", 4⟩, ints [2, 3]⟩, .var ⟨"v", 3⟩⟩, ⟨⟨⟨"q", 5⟩, ints [2, 3]⟩, .var ⟨"u", 2⟩⟩]],
    [⟨⟨⟨"u", 2⟩, ints [3]⟩, .var ⟨"a", 6⟩⟩, ⟨⟨⟨"v", 3⟩, ints [3]⟩, .var ⟨"b", 7⟩⟩]⟩

/-- The loop at the heart. -/
def loop : LoopStm :=
  ⟨[⟨⟨"a", 6⟩, .scalar .i32⟩, ⟨⟨"b", 7⟩, .scalar .i32⟩],
    ⟨[⟨"x", 8⟩, ⟨"y", 9⟩],
      [⟨⟨⟨"x", 8⟩, .scalar .i32⟩, .ofInt32 0⟩, ⟨⟨⟨"y", 9⟩, .scalar .i32⟩, .ofInt32 1⟩],
      .forBelow ⟨"k", 10⟩ (.ofInt32 5), .yield [.var ⟨"y", 9⟩, .var ⟨"x", 8⟩]⟩⟩

/-- The attempt to move it. -/
def attempt : Attempt := { supply := ⟨11⟩ }

end Crossed

/-- Past these two maps, which both cross what they return, the loop returns its two values in the
other order, and each ends up in the array that the maps wire it to. -/
theorem interchange_wires_crossed :
    ∃ (moved : Moved) (st' : Attempt) (nest : KernelNest) (replicates : List Stm) (out : LoopStm),
      interchange {} Crossed.nesting Crossed.targets Crossed.loop.toStm Crossed.attempt
        = .ok moved st' ∧ moved.stms = replicates ++ [out.toStm] ∧ replicates.length = 4 ∧
      out.loop.ret = [⟨"y_expanded_expanded", 19⟩, ⟨"x_expanded_expanded", 17⟩] ∧
      out.loop.names = [⟨"x_expanded_expanded", 17⟩, ⟨"y_expanded_expanded", 19⟩] ∧
      nest.Aligned Crossed.nesting Crossed.targets [Crossed.loop.toStm] 11 ∧
      Crossed.loop.Wired [.ofInt32 2, .ofInt32 3] Crossed.targets.inner nest.inner.pattern out := by
  have hmoves : passes (fun moved => decide (moved.stms.length = 5 ∧
        (moved.stms.getLast?.bind LoopStm.ofStm?).map (fun l => (l.loop.ret, l.loop.names))
          = some ([⟨"y_expanded_expanded", 19⟩, ⟨"x_expanded_expanded", 17⟩],
              [⟨"x_expanded_expanded", 17⟩, ⟨"y_expanded_expanded", 19⟩])))
      (interchange {} Crossed.nesting Crossed.targets Crossed.loop.toStm Crossed.attempt)
        = true := by
    decide +kernel
  obtain ⟨moved, st', h, htest⟩ := exists_of_passes hmoves
  obtain ⟨hlen, hlast⟩ := of_decide_eq_true htest
  obtain ⟨nest, s, replicates, out, -, haligned, hstms, -, -, hwired⟩ :=
    interchange_wires (by decide) (by decide) (by decide) (by decide) h
  rw [hstms, List.length_append, List.length_singleton, Nat.add_right_cancel_iff] at hlen
  rw [hstms, List.getLast?_concat, Option.bind_some, LoopStm.ofStm?_toStm, Option.map_some,
    Option.some.injEq, Prod.mk.injEq] at hlast
  exact ⟨moved, st', nest, replicates, out, h, hstms, hlen, hlast.1, hlast.2, haligned, hwired⟩

end MapNest
