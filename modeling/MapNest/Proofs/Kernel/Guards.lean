import MapNest.Proofs.Kernel.Flatten
import MapNest.Proofs.Kernel.Reduce

/-!
# `MapNest.Proofs.Kernel.Guards`: the checks that a step waits for

A map rests on run-time checks, and so does a kernel. They have to hold before anything inside is
run. `Exp.guarded` lists the steps of an expression, each with all the checks it waits for: its own,
and those of the maps and kernels around it.

Two transformations take a step out of the maps or the kernel that it stood in. Flattening puts the
body of a nest into one kernel, which rests on the checks of the outermost level only; what the
levels inside rest on is lost, unless the outermost level or the step itself rests on it as well
(`KernelNest.flatten_keeps_iff`). Reducing gives the checks of a kernel to the operation in its
place, unless this is a copy, which can rest on nothing (`Stm.reduce_keeps_iff`).
-/

set_option autoImplicit false

namespace MapNest

/-! ### Steps and their checks -/

/-- A step of a program, and the checks that have to hold before it is run. -/
structure Guarded where
  /-- The step: an operation or an update. -/
  step : Exp
  /-- The checks it waits for. -/
  checks : List Name

namespace Guarded

/-- The step inside something that rests on some checks. -/
def under (outer : List Name) (g : Guarded) : Guarded := { g with checks := outer ++ g.checks }

/-- A step inside two things, one inside the other, rests on the checks of both. -/
theorem under_append {xs ys : List Name} {g : Guarded} :
    g.under (xs ++ ys) = (g.under ys).under xs := by
  simp only [under, List.append_assoc]

/-- Steps are replaced by others, one by one, and each waits for all the checks that the one in its
place waited for. -/
def Keep (before after : List Guarded) : Prop :=
  List.Forall₂ (fun g g' => ∀ c ∈ g.checks, c ∈ g'.checks) before after

/-- Steps left alone keep their checks. -/
theorem Keep.refl {gs : List Guarded} : Keep gs gs := List.forall₂_same.2 fun _ _ _ hc => hc

/-- One step in place of another keeps the checks if it waits for all that the other waited for. -/
theorem keep_singleton {g g' : Guarded} :
    Keep [g] [g'] ↔ ∀ c ∈ g.checks, c ∈ g'.checks := by
  rw [Keep, List.forall₂_cons]
  exact and_iff_left .nil

/-- Steps that are moved keep their checks just if what they waited for in the old place they wait
for in the new one, or by themselves. -/
theorem keep_under_iff {gs : List Guarded} {before after : List Name} :
    Keep (gs.map (under before)) (gs.map (under after)) ↔
      ∀ g ∈ gs, ∀ c ∈ before, c ∈ after ∨ c ∈ g.checks := by
  rw [Keep, List.forall₂_map_left_iff, List.forall₂_map_right_iff, List.forall₂_same]
  refine forall₂_congr fun g _ => ⟨fun h c hc => ?_, fun h c hc => ?_⟩
  · exact List.mem_append.1 (h c (List.mem_append_left _ hc))
  · rcases List.mem_append.1 hc with hc | hc
    · exact List.mem_append.2 (h c hc)
    · exact List.mem_append_right _ hc

end Guarded

mutual

/-- The steps of an expression. -/
def Exp.guarded : Exp → List Guarded
  | .op o => [⟨.op o, o.checks⟩]
  | .update checks source indices value => [⟨.update checks source indices value, checks⟩]
  | .loop l => l.guarded
  | .map checks _ function _ => function.guarded.map (Guarded.under checks)
  | .kernel k => k.guarded

/-- The steps of a loop. -/
def Loop.guarded : Loop → List Guarded
  | ⟨_, _, _, body⟩ => body.guarded

/-- The steps of a function. -/
def Lambda.guarded : Lambda → List Guarded
  | ⟨_, _, body, _⟩ => body.guarded

/-- The steps of a kernel, all of which wait for its checks. -/
def Kernel.guarded : Kernel → List Guarded
  | ⟨checks, _, _, _, _, _, body⟩ => body.guarded.map (Guarded.under checks)

/-- The steps of a body. -/
def Body.guarded : Body → List Guarded
  | .yield _ => []
  | .bind _ exp rest => exp.guarded ++ rest.guarded

end

/-- The steps of a kernel are those of its body, each resting on the checks of the kernel too. -/
theorem Kernel.guarded_eq {k : Kernel} :
    k.guarded = k.body.guarded.map (Guarded.under k.checks) := by
  cases k
  rw [guarded]

/-- A body that is one statement has the steps of the statement. -/
theorem Body.guarded_ofStm {s : Stm} : (Body.ofStm s).guarded = s.exp.guarded := by
  simp [ofStm, guarded]

/-! ### Flattening -/

/-- The map of a level around a body. -/
def Level.mapStm (l : Level) (body : Body) : Stm :=
  ⟨l.pattern, .map l.checks l.width ⟨l.index, l.params, body, l.pattern.map (·.ty.row)⟩ l.arrays⟩

/-- A nest around a body: maps inside one another. -/
def KernelNest.maps (nest : KernelNest) (body : Body) : Stm :=
  nest.outer.foldr (fun l s => l.mapStm (.ofStm s)) (nest.inner.mapStm body)

namespace KernelNest

variable {nest : KernelNest} {body : Body} {supply supply' : Supply} {flat : FlatKernel}

/-- In the nest, the steps of the body wait for the checks of all levels. -/
theorem guarded_maps :
    (nest.maps body).exp.guarded
      = body.guarded.map (Guarded.under (nest.toList.flatMap (·.checks))) := by
  obtain ⟨outer, inner⟩ := nest
  induction outer with
  | nil =>
    show (inner.mapStm body).exp.guarded = body.guarded.map (Guarded.under (inner.checks ++ []))
    rw [List.append_nil, Level.mapStm, Exp.guarded, Lambda.guarded]
  | cons l outer ih =>
    show (l.mapStm (.ofStm (maps ⟨outer, inner⟩ body))).exp.guarded = body.guarded.map
      (Guarded.under (l.checks ++ (Stack.toList ⟨outer, inner⟩).flatMap (·.checks)))
    rw [Level.mapStm, Exp.guarded, Lambda.guarded, Body.guarded_ofStm, ih, List.map_map]
    exact List.map_congr_left fun g _ => Guarded.under_append.symm

/-- The kernel of a nest runs the body as it is. Its steps keep their own checks and wait for those
of the outermost level. So the checks of all levels are among those of the kernel just if the levels
inside rest on nothing that the outermost one does not; and the steps wait for all that they waited
for in the nest just if each of them rests on the checks that the outermost level lacks. -/
theorem flatten_keeps_iff (h : nest.flatten body supply = .ok flat supply') :
    ∃ k : Kernel, flat.stm = ⟨nest.outermost.pattern, .kernel k⟩ ∧ k.body = body ∧
      k.guarded = body.guarded.map (Guarded.under nest.outermost.checks) ∧
      ((∀ l ∈ nest.toList, ∀ c ∈ l.checks, c ∈ k.checks) ↔
        ∀ l ∈ nest.toList.tail, ∀ c ∈ l.checks, c ∈ nest.outermost.checks) ∧
      (Guarded.Keep (nest.maps body).exp.guarded k.guarded ↔
        ∀ g ∈ body.guarded, ∀ l ∈ nest.toList.tail, ∀ c ∈ l.checks,
          c ∈ nest.outermost.checks ∨ c ∈ g.checks) := by
  obtain ⟨width, thread, s, -, -, -, hstm⟩ := flatten_eq_ok h
  obtain ⟨inside, hlevels⟩ := nest.exists_toList_eq_cons
  have hguarded : (nest.kernel body width thread).guarded
      = body.guarded.map (Guarded.under nest.outermost.checks) := Kernel.guarded_eq
  refine ⟨nest.kernel body width thread, hstm, rfl, hguarded, ?_, ?_⟩
  · rw [hlevels, List.forall_mem_cons]
    exact and_iff_right fun c hc => hc
  · rw [guarded_maps, hguarded, Guarded.keep_under_iff, hlevels]
    refine forall₂_congr fun g _ => ?_
    simp only [List.flatMap_cons, List.mem_append, List.mem_flatMap, List.tail_cons]
    constructor
    · exact fun hall l hl c hc => hall c (Or.inr ⟨l, hl, hc⟩)
    · rintro hall c (hc | ⟨l, hl, hc⟩)
      · exact Or.inl hc
      · exact hall l hl c hc

end KernelNest

/-! A nest of two maps around one access to a table:

    ys = <bounds> map i < 2 (row <- rows):
      zs = <inner> map j < 3 (x <- row):
        z = <bounds> table[x]
-/

namespace Lookups

/-- Integers in dimensions of some sizes. -/
def ints (sizes : List Int32) : Ty := .array .i32 (sizes.map .ofInt32) false

/-- The check that the outer map and the access rest on. -/
def bounds : Name := ⟨"bounds", 0⟩

/-- The outer map. -/
def outer : Level where
  pattern := [⟨⟨"ys", 1⟩, ints [2, 3]⟩]
  checks := [bounds]
  width := .ofInt32 2
  index := ⟨"i", 2⟩
  inputs := [⟨⟨⟨"row", 3⟩, ints [3]⟩, ⟨"rows", 4⟩⟩]

/-- The inner map. -/
def inner (checks : List Name) : Level where
  pattern := [⟨⟨"zs", 5⟩, ints [3]⟩]
  checks
  width := .ofInt32 3
  index := ⟨"j", 6⟩
  inputs := [⟨⟨⟨"x", 7⟩, .scalar .i32⟩, ⟨"row", 3⟩⟩]

/-- The nest, whose inner map rests on some checks. -/
def nest (checks : List Name) : KernelNest := ⟨[outer], inner checks⟩

/-- The work at the heart. -/
def body : Body :=
  .ofStm (.ofOp ⟨⟨"z", 8⟩, .scalar .i32⟩ (.index [bounds] ⟨"table", 9⟩ [.var ⟨"x", 7⟩]))

end Lookups

/-- If the inner map rests on what the outer one does, nothing is lost. -/
theorem KernelNest.flatten_keeps_lookups :
    ∃ flat supply', (Lookups.nest [Lookups.bounds]).flatten Lookups.body ⟨10⟩ = .ok flat supply' ∧
      ∃ k : Kernel, flat.stm.exp = .kernel k ∧
        (∀ l ∈ (Lookups.nest [Lookups.bounds]).toList, ∀ c ∈ l.checks, c ∈ k.checks) ∧
        Guarded.Keep ((Lookups.nest [Lookups.bounds]).maps Lookups.body).exp.guarded k.guarded := by
  obtain ⟨flat, supply', h⟩ :
      ∃ flat supply',
        (Lookups.nest [Lookups.bounds]).flatten Lookups.body ⟨10⟩ = .ok flat supply' :=
    exists_flatten_eq_ok rfl (by decide)
  obtain ⟨k, hstm, -, -, hchecks, hkeep⟩ := KernelNest.flatten_keeps_iff h
  have hinside : ∀ l ∈ (Lookups.nest [Lookups.bounds]).toList.tail, ∀ c ∈ l.checks,
      c ∈ (Lookups.nest [Lookups.bounds]).outermost.checks := by decide
  exact ⟨flat, supply', h, k, congrArg Stm.exp hstm, hchecks.2 hinside,
    hkeep.2 fun g _ l hl c hc => Or.inl (hinside l hl c hc)⟩

/-- What the inner map alone rests on is lost. -/
theorem KernelNest.flatten_loses_check :
    ∃ flat supply' k, (Lookups.nest [⟨"shape", 10⟩]).flatten Lookups.body ⟨11⟩ = .ok flat supply' ∧
      flat.stm.exp = .kernel k ∧
      ¬∀ l ∈ (Lookups.nest [⟨"shape", 10⟩]).toList, ∀ c ∈ l.checks, c ∈ k.checks :=
  ⟨_, _, _, rfl, rfl, by decide⟩

/-! ### Reducing -/

/-- The operation on a whole array rests on the checks around it, unless it is a copy. -/
theorem Op.checks_onAll {o : Op} {n : Name} (checks : List Name) (outer : List Operand)
    (array : Name) (ho : o.array? = some n) :
    (o.onAll checks outer array).checks = checks ++ o.checks ∨
      o = .copy n ∧ o.onAll checks outer array = .copy array := by
  cases o with
  | rearrange checks' perm _ => exact Or.inl rfl
  | reshape checks' shape _ => exact Or.inl rfl
  | copy _ =>
    cases ho
    exact Or.inr ⟨rfl, rfl⟩
  | _ => cases ho

/-- A kernel that is replaced by an operation does one step. -/
theorem Kernel.JustDoes.guarded {k : Kernel} {input : KernelInput} {inner : Op}
    (h : k.JustDoes input inner) : k.guarded = [⟨.op inner, k.checks ++ inner.checks⟩] := by
  obtain ⟨b, hbody⟩ := h.body
  rw [Kernel.guarded_eq, hbody]
  simp [Body.guarded, Exp.guarded, Guarded.under]

/-- An operation in the place of a kernel keeps the checks of its step, unless it is a copy and the
kernel rests on some. -/
theorem Kernel.JustDoes.keep_iff {k : Kernel} {input : KernelInput} {inner o : Op}
    (h : k.JustDoes input inner)
    (ho : o.checks = k.checks ++ inner.checks ∨
      inner = .copy input.param.name ∧ o = .copy input.array) :
    Guarded.Keep (Exp.kernel k).guarded (Exp.op o).guarded ↔
      ∀ array, o = .copy array → k.checks = [] := by
  simp only [Exp.guarded]
  rw [h.guarded, Guarded.keep_singleton]
  rcases ho with hall | ⟨rfl, rfl⟩
  · refine iff_of_true (fun c hc => hall ▸ hc) fun array hcopy => ?_
    rw [hcopy] at hall
    exact (List.append_eq_nil_iff.1 hall.symm).1
  · -- A copy rests on nothing, so nothing may be asked for.
    show (∀ c ∈ k.checks ++ [], c ∈ []) ↔ _
    rw [List.append_nil]
    constructor
    · exact fun hnone _ _ => List.eq_nil_iff_forall_not_mem.2 fun c hc =>
        List.not_mem_nil (hnone c hc)
    · intro hempty c hc
      rwa [hempty input.array rfl] at hc

/-- Reducing a statement keeps the checks of its steps, unless it turns a kernel that rests on some
into a copy. Any other operation in the place of a kernel rests on the checks of the kernel and of
the operation in its body, in this order. -/
theorem Stm.reduce_keeps_iff {s s' : Stm} {st st' : Attempt} (h : s.reduce st = .ok s' st') :
    (Guarded.Keep s.exp.guarded s'.exp.guarded ↔
      ∀ k array, s.exp = .kernel k → s'.exp = .op (.copy array) → k.checks = []) ∧
    ∀ k o, s.exp = .kernel k → s'.exp = .op o →
      ∃ input inner, k.JustDoes input inner ∧
        (o.checks = k.checks ++ inner.checks ∨
          inner = .copy input.param.name ∧ o = .copy input.array) := by
  obtain ⟨pattern, exp⟩ := s
  cases exp with
  | kernel k =>
    rw [reduce_kernel] at h
    rcases k.wholeOp?_cases with ⟨hnone, -⟩ | ⟨input, inner, hdoes, hop | ⟨hfails, -⟩⟩
    · rw [hnone] at h
      cases h
      refine ⟨iff_of_true .refl fun _ _ _ hcopy => ?_, fun _ _ _ ho => ?_⟩
      · cases hcopy
      · cases ho
    · have hchecks := Op.checks_onAll k.checks (k.space.map (·.size)) input.array hdoes.array
      generalize inner.onAll k.checks (k.space.map (·.size)) input.array = o at hop hchecks
      rw [hop] at h
      cases h
      refine ⟨?_, fun k' o' hk ho => ?_⟩
      · refine (hdoes.keep_iff hchecks).trans
          ⟨fun hempty k' array hk ho => ?_, fun h array ho => ?_⟩
        · cases hk
          exact hempty array (Exp.op.inj ho)
        · exact h k array rfl (congrArg Exp.op ho)
      · cases hk
        cases ho
        exact ⟨input, inner, hdoes, hchecks⟩
    · rw [hfails] at h
      cases h
  | _ =>
    cases h
    refine ⟨iff_of_true .refl fun _ _ hk => ?_, fun _ _ hk => ?_⟩ <;> cases hk

/-! A kernel that lays out each of two rows:

    ys = <bounds> kernel (i < 2) (x <- xs[i]):
      y = x laid out
      y
-/

namespace Rows

open Lookups (ints bounds)

/-- The row at a point. -/
def input : KernelInput := ⟨⟨⟨"x", 1⟩, ints [3]⟩, ⟨"xs", 2⟩, [.var ⟨"i", 3⟩]⟩

/-- The kernel with an operation as its work. -/
def kernel (o : Op) : Kernel where
  checks := [bounds]
  width := .ofInt32 2
  thread := ⟨"t", 4⟩
  space := [⟨⟨"i", 3⟩, .ofInt32 2⟩]
  inputs := [input]
  returns := [⟨ints [3], [0]⟩]
  body := .ofStm (.ofOp ⟨⟨"y", 5⟩, ints [3]⟩ o)

/-- The kernel with its result. -/
def stm (o : Op) : Stm := ⟨[⟨⟨"ys", 6⟩, ints [2, 3]⟩], .kernel (kernel o)⟩

/-- A row as it is, given a shape that is checked. -/
def reshaped : Op := .reshape [⟨"shape", 7⟩] [.coercion (.ofInt32 3)] ⟨"x", 1⟩

/-- The same on the whole array. -/
def whole : Op :=
  .reshape [bounds, ⟨"shape", 7⟩] [.coercion (.ofInt32 2), .coercion (.ofInt32 3)] ⟨"xs", 2⟩

/-- The kernel that gives each row its shape becomes one operation on the whole array. -/
theorem reduce_eq : (stm reshaped).reduce ⟨⟨8⟩, ∅, []⟩
    = .ok { stm reshaped with exp := .op whole } ⟨⟨8⟩, ∅, [.reduced whole]⟩ := rfl

end Rows

/-- No check is lost when that kernel is reduced. -/
theorem Stm.reduce_keeps_rows :
    (Rows.stm Rows.reshaped).reduce ⟨⟨8⟩, ∅, []⟩
        = .ok { Rows.stm Rows.reshaped with exp := .op Rows.whole }
          ⟨⟨8⟩, ∅, [.reduced Rows.whole]⟩ ∧
      Guarded.Keep (Rows.stm Rows.reshaped).exp.guarded (Exp.op Rows.whole).guarded := by
  refine ⟨Rows.reduce_eq, (Stm.reduce_keeps_iff Rows.reduce_eq).1.2 fun k array _ hcopy => ?_⟩
  cases hcopy

/-- A copy in the place of a kernel loses what the kernel rests on. -/
theorem Stm.reduce_loses_check :
    ∃ st', (Rows.stm (.copy ⟨"x", 1⟩)).reduce ⟨⟨8⟩, ∅, []⟩
        = .ok { Rows.stm (.copy ⟨"x", 1⟩) with exp := .op (.copy ⟨"xs", 2⟩) } st' ∧
      ¬∀ c ∈ (Rows.kernel (.copy ⟨"x", 1⟩)).checks, c ∈ (Op.copy ⟨"xs", 2⟩).checks :=
  ⟨_, rfl, by decide⟩

end MapNest
