import MapNest.Proofs.Nest.Visible
import MapNest.Proofs.Semantics.Value

/-!
# `MapNest.Proofs.Nest.Reads`: a kernel nest reads the right data

The maps around some statements and the targets left behind say what every name stands for at every
point of the nest: an index is the number of the iteration, a parameter is a row of its array, and
an array of a target has for its rows the values that the body returns into it. `Assigns` says that
an assignment of values obeys all of this.

`Selection.kernelNest_reads` is the main statement. It enters the levels of the kernel nest from an
environment that knows only what is visible outside the nest. Each index and each parameter then
has the value that the assignment gives it at the point reached, and so has each name that the
statements read.

The invariant is about the demand of the levels built so far: if the environment has the assigned
values of the names that they demand and that are visible where they stand, then entering them gives
the assigned values further inside (`Builds.reads`). `Frame.Closes.reads` is the step, for one
level.
-/

set_option autoImplicit false

namespace MapNest

/-! ### What a nest means -/

/-- The numbers of iterations from a prefix on, one for each level, are in range. -/
def InSpace (extent : List Nat → Nat) : List Nat → List Nat → Prop
  | _, [] => True
  | p, i :: point => i < extent p ∧ InSpace extent (p ++ [i]) point

/-- What an iteration of a map means: given the values outside, which values hold inside. -/
structure Enclosing.Iterates (e : Enclosing) (t : Target) (within : List (Enclosing × Target))
    (i : Nat) (ρ σ : Env) : Prop where
  /-- The index is the number of the iteration. -/
  index : σ e.level.index = .ofIndex i
  /-- A parameter is a row of its array. -/
  params : ∀ r ∈ e.level.inputs, σ r.param.name = (ρ r.array).row i
  /-- A returned value is a row of the array it goes into. -/
  outputs : ∀ o ∈ t, ∀ n, o.value = .var n → (ρ o.binder.name).row i = σ n
  /-- What the map and its body do not bind is as it was. -/
  frame : ∀ n, n ∉ e.bound → n ∉ produced within → σ n = ρ n

/-- An assignment gives every name a value at every point of some maps around one another, and at
every prefix of a point, as the maps and their targets ask. -/
def Assigns (env : List Nat → Env) (extent : List Nat → Nat) :
    List Nat → List (Enclosing × Target) → Prop
  | _, [] => True
  | p, (e, t) :: within => ∀ i < extent p,
      e.Iterates t within i (env p) (env (p ++ [i])) ∧ Assigns env extent (p ++ [i]) within

/-! ### One level -/

/-- A level reads the right rows, and passes on what is demanded further inside. Here `within` are
the maps further inside with the targets left behind, and `ρ` knows what is visible outside. -/
theorem Frame.Closes.reads {f : Frame} {bound : NameSet} {demand : Demand}
    {captures : List Capture} {lo hi i : Nat} {t : Target} {ρ τ σ : Env}
    (within : List (Enclosing × Target)) (h : f.Closes bound demand captures lo hi)
    (hbelow : ∀ n, n ∈ f.below ↔ n ∈ produced within)
    (hnodup : (f.enclosing.level.index :: Pattern.names f.enclosing.level.params).Nodup)
    (harrays : ∀ r ∈ f.enclosing.level.inputs, r.array ∉ f.enclosing.inside within)
    (hcaptures : ∀ c ∈ captures, c.input.array ∉ f.enclosing.inside within ∧
      ∃ o ∈ t, o.binder.name = c.input.array ∧ o.value = .var c.input.param.name)
    (hstep : f.enclosing.Iterates t within i τ σ)
    (hρ : ∀ n ∈ (demand.around (f.closed demand captures)).free,
      n ∉ f.enclosing.inside within → ρ n = τ n) :
    (∀ n ∈ (f.closed demand captures).bound, (f.closed demand captures).enter i ρ n = σ n) ∧
      ∀ n ∈ demand.free, n ∉ hidden within → (f.closed demand captures).enter i ρ n = σ n := by
  have hclosed := Frame.nodup_closed h.names hnodup
  rw [List.nodup_cons] at hclosed
  have hinside : ∀ n ∈ (f.closed demand captures).bound, n ∈ f.enclosing.inside within :=
    fun n hn => h.mem_inside_of_mem_bound (fun m hm => (hbelow m).1 hm) hn
  -- An array that a parameter is read from is demanded of what is outside, and visible there.
  have harray : ∀ r ∈ (f.closed demand captures).inputs,
      r.array ∉ f.enclosing.inside within → ρ r.array = τ r.array := by
    intro r hr hout
    refine hρ r.array (Demand.mem_around_free.2 (Or.inl (Level.mem_free.2 ⟨?_, ?_⟩))) hout
    · exact Or.inr (Or.inr (Or.inr ⟨r, hr, rfl⟩))
    · intro hn
      exact hout (hinside _ hn)
  have hbound : ∀ n ∈ (f.closed demand captures).bound,
      (f.closed demand captures).enter i ρ n = σ n := by
    intro n hn
    -- A parameter is one of the map's own, or hands in a captured value through a row of an array
    -- that the map left behind returns the value into.
    rcases Level.mem_bound.1 hn with rfl | ⟨r, hr, rfl⟩
    · rw [Level.enter_index hclosed.1]
      exact hstep.index.symm
    · rw [Level.enter_param hclosed.2 hr]
      obtain ⟨r', hfrom, rfl⟩ := Frame.mem_inputs_closed.1 hr
      rcases hfrom with ⟨hown, -⟩ | ⟨c, hc, rfl⟩
      · rw [harray _ hr (by simpa using harrays r' hown), RowInput.array_demote,
          RowInput.name_demote]
        exact (hstep.params r' hown).symm
      · obtain ⟨hout, o, ho, hname, hvalue⟩ := hcaptures c hc
        rw [harray _ hr (by simpa using hout), RowInput.array_demote, RowInput.name_demote,
          ← hname]
        exact hstep.outputs o ho _ hvalue
  refine ⟨hbound, ?_⟩
  intro n hn hhidden
  by_cases hown : n ∈ (f.closed demand captures).bound
  · exact hbound n hown
  · -- Neither the map nor its body binds the name: it is what it was outside.
    have hmap : n ∉ f.enclosing.bound ∧ n ∉ produced within := by
      constructor
      · intro hmap
        exact hown (Frame.mem_bound_closed_of_demand h.names hn (Or.inl hmap))
      · intro hproduced
        exact hown (Frame.mem_bound_closed_of_demand h.names hn
          (Or.inr ((hbelow n).2 hproduced)))
    rw [Level.enter_of_not_mem_bound hown, hstep.frame n hmap.1 hmap.2]
    refine hρ n (Demand.mem_around_free.2 (Or.inr ⟨hn, hown⟩)) ?_
    rw [Enclosing.mem_inside, declared_eq, List.mem_append, not_or, not_or]
    exact ⟨hmap.1, hmap.2, hhidden⟩

/-! ### The levels of a nest -/

/-- The order in which levels return their arrays has nothing to do with entering them. -/
@[simp] theorem Level.enterAll_map_permute {order : List Nat} {levels : List Level}
    {point : List Nat} {ρ : Env} :
    Level.enterAll (levels.map (Level.permute order)) point ρ = Level.enterAll levels point ρ := by
  induction levels generalizing point ρ with
  | nil => rfl
  | cons l levels ih =>
    cases point with
    | nil => rfl
    | cons i point => exact ih

/-- Entered from an environment, some levels agree with an assignment of values to the points. -/
structure ReadsAt (env : List Nat → Env) (extent : List Nat → Nat) (names : NameSet)
    (levels : List Level) (p : List Nat) (ρ : Env) : Prop where
  /-- What a level binds has its assigned value at each prefix of a point. -/
  binds : ∀ point i l, levels[point.length]? = some l → InSpace extent p (point ++ [i]) →
    ∀ n ∈ l.bound, Level.enterAll levels (point ++ [i]) ρ n = env (p ++ (point ++ [i])) n
  /-- Some names have their assigned values at the points. -/
  finds : ∀ point, point.length = levels.length → InSpace extent p point →
    ∀ n ∈ names, Level.enterAll levels point ρ n = env (p ++ point) n

namespace ReadsAt

variable {env : List Nat → Env} {extent : List Nat → Nat} {names : NameSet} {l : Level}
  {levels : List Level} {p : List Nat} {ρ : Env}

/-- Where there are no levels, nothing is entered, and what holds outside is what is found. -/
theorem nil (h : ∀ n ∈ names, ρ n = env p n) : ReadsAt env extent names [] p ρ where
  binds point i l hpoint := by simp at hpoint
  finds point hlen _ n hn := by
    rw [List.length_eq_zero_iff.1 hlen, Level.enterAll_nil, List.append_nil]
    exact h n hn

/-- A level agrees with the assignment if it binds assigned values and, in each of its iterations,
the levels inside agree with it. -/
theorem cons (hown : ∀ i < extent p, ∀ n ∈ l.bound, l.enter i ρ n = env (p ++ [i]) n)
    (hrest : ∀ i < extent p, ReadsAt env extent names levels (p ++ [i]) (l.enter i ρ)) :
    ReadsAt env extent names (l :: levels) p ρ := by
  constructor
  · intro point i l' hpoint hspace n hn
    cases point with
    | nil =>
      cases hpoint
      show Level.enterAll levels [] (l.enter i ρ) n = _
      rw [Level.enterAll_nil]
      exact hown i hspace.1 n hn
    | cons j point =>
      rw [List.length_cons, List.getElem?_cons_succ] at hpoint
      have hinner := (hrest j hspace.1).binds point i l' hpoint hspace.2 n hn
      show Level.enterAll levels (point ++ [i]) (l.enter j ρ) n = _
      rw [hinner, List.append_assoc]
      rfl
  · intro point hlen hspace n hn
    cases point with
    | nil => simp at hlen
    | cons j point =>
      have hinner := (hrest j hspace.1).finds point (by simpa using hlen) hspace.2 n hn
      show Level.enterAll levels point (l.enter j ρ) n = _
      rw [hinner, List.append_assoc]
      rfl

/-- The order of a level's arrays has nothing to do with what it reads. -/
theorem map_permute {order : List Nat} (h : ReadsAt env extent names levels p ρ) :
    ReadsAt env extent names (levels.map (Level.permute order)) p ρ := by
  constructor
  · intro point i l hpoint hspace n hn
    rw [List.getElem?_map, Option.map_eq_some_iff] at hpoint
    obtain ⟨l', hl', rfl⟩ := hpoint
    rw [Level.enterAll_map_permute]
    exact h.binds point i l' hl' hspace n hn
  · intro point hlen hspace n hn
    rw [Level.enterAll_map_permute]
    exact h.finds point (by rwa [List.length_map] at hlen) hspace n hn

end ReadsAt

variable {s : Selection} {bound : NameSet} {levels : List (Enclosing × Target)} {lo hi : Nat}
  {built : Built}

/-- If what the levels built demand has its assigned values where they stand, then the levels agree
with the assignment, and so does what the selection reads. -/
theorem Builds.reads {nesting : Nesting} {targets : Targets} {env : List Nat → Env}
    {extent : List Nat → Nat} (h : Builds s bound levels lo hi built) :
    Consistent nesting targets lo → ∀ outer, nesting.levels targets = outer ++ levels →
    ∀ {p : List Nat} {ρ : Env}, Assigns env extent p (retarget levels built.targets) →
    (∀ n ∈ built.demand.free, n ∉ hidden (retarget levels built.targets) → ρ n = env p n) →
    ReadsAt env extent (s.free ∩ bound) built.nest.toList p ρ := by
  induction h with
  | @innermost t f captures lo hi hbelow hcarrier hpassed _ htarget _ hcloses =>
    intro hc outer hl p ρ hassigns hρ
    rw [retarget_single] at hassigns hρ
    have hread := fun i hi => hcloses.reads []
      (fun n => ⟨fun hn => absurd hn (hbelow n), fun hn => absurd hn List.not_mem_nil⟩)
      (hc.nodup_params hl) (fun r hr => hc.array_not_mem_inside hl hr)
      (hc.innermost_supplied hl hcarrier hpassed hcloses) (hassigns i hi).1 hρ
    -- There is nothing further inside: what is demanded are the names that the selection reads.
    refine .cons (fun i hi => (hread i hi).1) fun i hi => .nil fun n hn => ?_
    exact (hread i hi).2 n hn List.not_mem_nil
  | @enclose within t built f captures order lo mid hi hwithin hbelow hcarrier htarget _ _
      hcloses ih =>
    intro hc outer hl p ρ hassigns hρ
    rw [retarget_pushOuter] at hassigns hρ
    rw [Stack.toList_pushOuter, Stack.toList_map]
    have hread := fun i hi => hcloses.reads (retarget within built.targets)
      (fun n => (hbelow n).trans hwithin.mem_produced.symm) (hc.nodup_params hl)
      (fun r hr => hc.array_not_mem_inside_retarget hl hwithin hr)
      (hc.enclose_supplied hl hwithin hcarrier hcloses) (hassigns i hi).1 hρ
    have hl' := hl.trans (List.append_cons outer (f.enclosing, t) within)
    -- Inside an iteration, the levels further inside find what they demand.
    refine .cons (fun i hi => (hread i hi).1) fun i hi => .map_permute ?_
    exact ih hc _ hl' (hassigns i hi).2 (hread i hi).2

/-- The kernel nest reads the right data. Given an assignment that the maps and the targets left
behind obey, and an environment that knows the values visible outside:

* what the statements read from the nest has its assigned value at every point;
* so has, at every prefix of a point, whatever the level reached binds;
* and what is visible outside keeps its value. -/
theorem Selection.kernelNest_reads {nesting : Nesting} {targets targets' : Targets}
    {stms : List Stm} {nest : KernelNest} {st st' : Attempt} {env : List Nat → Env}
    {extent : List Nat → Nat} {ρ : Env}
    (hc : Consistent nesting targets st.supply.next)
    (h : (Selection.ofStms targets stms).kernelNest nesting st = .ok (targets', nest) st')
    (hassigns : Assigns env extent [] (nesting.levels targets'))
    (hρ : ∀ n, n ∉ hidden (nesting.levels targets') → ρ n = env [] n) :
    (∀ point, point.length = nesting.depth → InSpace extent [] point →
      ∀ n ∈ Stm.freeAll stms, n ∉ Stm.bound stms → n ∈ nesting.bound →
        Level.enterAll nest.toList point ρ n = env point n) ∧
    (∀ point i l, nest.toList[point.length]? = some l → InSpace extent [] (point ++ [i]) →
      ∀ n ∈ l.bound, Level.enterAll nest.toList (point ++ [i]) ρ n = env (point ++ [i]) n) ∧
    ∀ point n, n ∉ hidden (nesting.levels targets') →
      Level.enterAll nest.toList point ρ n = env [] n := by
  obtain ⟨demand, hbuilds⟩ := Selection.builds_of_kernelNest_eq_ok h
  have hlen := Nesting.length_levels hc.depth_eq
  have hlevels : retarget (nesting.levels targets) targets' = nesting.levels targets' :=
    Nesting.retarget_levels hc.depth_eq (by rw [← hlen, hbuilds.depth_targets])
  -- Around the whole nest stands nothing, and the environment knows all that is visible there.
  have hreads := hbuilds.reads hc [] rfl (p := []) (by rw [hlevels]; exact hassigns)
    (fun n _ hn => hρ n (hlevels ▸ hn))
  refine ⟨?_, ?_, ?_⟩
  · intro point hpoint hspace n hn hnot hnest
    have hread : n ∈ (Selection.ofStms targets stms).free ∩ nesting.bound :=
      NameSet.mem_inter.2 ⟨NameSet.mem_sdiff.2 ⟨hn, hnot⟩, hnest⟩
    have hdepth : point.length = nest.toList.length := by
      rw [hpoint, Stack.length_toList, hbuilds.depth_nest, hlen]
    exact hreads.finds point hdepth hspace n hread
  · intro point i l hl hspace n hn
    exact hreads.binds point i l hl hspace n hn
  · intro point n hn
    rw [Level.enterAll_of_not_mem_bound, hρ n hn]
    intro l hl hmem
    exact hn (hlevels ▸ hbuilds.mem_hidden_of_mem_bound hl hmem)

/-! A nest of two maps, with a value `y` bound between them that the statement at its heart reads:

    map i < 2 (x <- xs):
      y = ..
      map j < 2 (z <- x):
        a = y + z
-/

namespace Sums

/-- The maps. -/
def nesting : Nesting :=
  ⟨[⟨{⟨"y", 3⟩},
      ⟨[⟨⟨"ys", 7⟩, .array .i32 [.ofInt32 2, .ofInt32 2] false⟩], [], .ofInt32 2, ⟨"i", 1⟩,
        [⟨⟨⟨"x", 2⟩, .array .i32 [.ofInt32 2] false⟩, ⟨"xs", 0⟩⟩]⟩⟩],
    ⟨∅, ⟨[⟨⟨"b", 8⟩, .array .i32 [.ofInt32 2] false⟩], [], .ofInt32 2, ⟨"j", 4⟩,
      [⟨⟨⟨"z", 5⟩, .scalar .i32⟩, ⟨"x", 2⟩⟩]⟩⟩⟩

/-- What they produce. -/
def targets : Targets :=
  ⟨[[⟨⟨⟨"ys", 7⟩, .array .i32 [.ofInt32 2, .ofInt32 2] false⟩, .var ⟨"b", 8⟩⟩]],
    [⟨⟨⟨"b", 8⟩, .array .i32 [.ofInt32 2] false⟩, .var ⟨"a", 6⟩⟩]⟩

/-- The statement at the heart. -/
def stms : List Stm := [Stm.arith .add ⟨"a", 6⟩ .i32 (.var ⟨"y", 3⟩) (.var ⟨"z", 5⟩)]

/-- The attempt to move it. -/
def attempt : Attempt :=
  { supply := ⟨9⟩, scope := (∅ : Scope).insert ⟨⟨"y", 3⟩, .scalar .i32⟩ }

/-- A matrix. -/
def matrix : Value :=
  .array [.array [.ofIndex 7, .ofIndex 8], .array [.ofIndex 9, .ofIndex 10]]

/-- What the names stand for outside the maps. -/
def outside : Env := fun n =>
  if n = ⟨"xs", 0⟩ then matrix
  else if n = ⟨"y_r", 9⟩ then .array [.ofIndex 0, .ofIndex 10]
  else default

/-- What they stand for in an iteration of the outer map: `y` is ten times its number. -/
def between (i : Nat) : Env := fun n =>
  if n = ⟨"i", 1⟩ then .ofIndex i
  else if n = ⟨"x", 2⟩ then matrix.row i
  else if n = ⟨"y", 3⟩ then .ofIndex (10 * i)
  else outside n

/-- What they stand for in an iteration of the inner map. -/
def heart (i j : Nat) : Env := fun n =>
  if n = ⟨"j", 4⟩ then .ofIndex j
  else if n = ⟨"z", 5⟩ then (matrix.row i).row j
  else between i n

/-- What they stand for at every prefix of a point. -/
def env : List Nat → Env
  | [] => outside
  | [i] => between i
  | i :: j :: _ => heart i j

/-- The names of these maps are all declared once, and before the tag 9. -/
theorem consistent : Consistent nesting targets 9 where
  depth_eq := rfl
  nodup := by decide
  arrays := by decide
  patterns := by decide
  tags_declared := by decide
  tags_free := by decide

/-- The nest that is built: `y` is handed in through the array `y_r`. -/
def nest : KernelNest :=
  ⟨[⟨[⟨⟨"ys", 7⟩, .array .i32 [.ofInt32 2, .ofInt32 2] false⟩], [], .ofInt32 2, ⟨"i", 1⟩,
      [⟨⟨⟨"x", 2⟩, .array .i32 [.ofInt32 2] false⟩, ⟨"xs", 0⟩⟩,
        ⟨⟨⟨"y", 3⟩, .scalar .i32⟩, ⟨"y_r", 9⟩⟩]⟩],
    ⟨[⟨⟨"b", 8⟩, .array .i32 [.ofInt32 2] false⟩], [], .ofInt32 2, ⟨"j", 4⟩,
      [⟨⟨⟨"z", 5⟩, .scalar .i32⟩, ⟨"x", 2⟩⟩]⟩⟩

/-- The targets left behind. -/
def left : Targets :=
  ⟨[[⟨⟨⟨"y_r", 9⟩, .array .i32 [.ofInt32 2] false⟩, .var ⟨"y", 3⟩⟩]], []⟩

/-- The attempt after the nest is built. -/
def after : Attempt :=
  { supply := ⟨10⟩
    scope := ((∅ : Scope).insert ⟨⟨"y", 3⟩, .scalar .i32⟩).insert
      ⟨⟨"y_r", 9⟩, .array .i32 [.ofInt32 2] false⟩ }

/-- The nest is built, with one new array. -/
theorem kernelNest_eq_ok :
    (Selection.ofStms targets stms).kernelNest nesting attempt = .ok (left, nest) after := by
  rfl

/-- The values given to the names are those the maps give them, for each of the two iterations of
either map. -/
theorem assigns : Assigns env (fun _ => 2) [] (nesting.levels left) := by
  intro i hi
  refine ⟨⟨rfl, ?_, ?_, ?_⟩, ?_⟩
  · intro r hr
    rw [List.mem_singleton.1 hr]
    rfl
  · intro o ho n hn
    rw [List.mem_singleton.1 ho] at hn ⊢
    cases hn
    match i, hi with
    | 0, _ => rfl
    | 1, _ => rfl
  · intro n hbound hproduced
    show between i n = outside n
    rw [between, if_neg, if_neg, if_neg]
    all_goals
      rintro rfl
      exact hbound (by decide)
  · intro j hj
    refine ⟨⟨rfl, ?_, ?_, ?_⟩, trivial⟩
    · intro r hr
      rw [List.mem_singleton.1 hr]
      rfl
    · intro o ho
      cases ho
    · intro n hbound hproduced
      show heart i j n = between i n
      rw [heart, if_neg, if_neg]
      all_goals
        rintro rfl
        exact hbound (by decide)

end Sums

/-- At the second row and the first column of that row, `y` is 10 although it is handed in through
an array, and `z` is 9. -/
theorem Selection.kernelNest_reads_sums :
    Consistent Sums.nesting Sums.targets Sums.attempt.supply.next ∧
      (Selection.ofStms Sums.targets Sums.stms).kernelNest Sums.nesting Sums.attempt
        = .ok (Sums.left, Sums.nest) Sums.after ∧
      Assigns Sums.env (fun _ => 2) [] (Sums.nesting.levels Sums.left) ∧
      Level.enterAll Sums.nest.toList [1, 0] Sums.outside ⟨"y", 3⟩ = .ofIndex 10 ∧
      Level.enterAll Sums.nest.toList [1, 0] Sums.outside ⟨"z", 5⟩ = .ofIndex 9 := by
  have h := Selection.kernelNest_reads Sums.consistent Sums.kernelNest_eq_ok Sums.assigns
    (fun n _ => rfl)
  have hspace : InSpace (fun _ => 2) [] [1, 0] := ⟨by decide, by decide, trivial⟩
  exact ⟨Sums.consistent, Sums.kernelNest_eq_ok, Sums.assigns,
    h.1 [1, 0] rfl hspace ⟨"y", 3⟩ (by decide) (by decide) (by decide),
    h.1 [1, 0] rfl hspace ⟨"z", 5⟩ (by decide) (by decide) (by decide)⟩

end MapNest
