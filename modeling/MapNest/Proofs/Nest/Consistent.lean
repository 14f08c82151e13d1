import Mathlib.Data.List.Nodup
import MapNest.Nest.Build

/-!
# `MapNest.Proofs.Nest.Consistent`: nests in which every name is bound once

An attempt is given a nesting and a stack of targets. `Nesting.levels` pairs the maps with their
targets, the outermost first, and `declared` lists what such a list binds: each map binds its
target's arrays where it stands, and its index, its parameters and the names of its body inside.

`Consistent` is what a walk through a program keeps up: one target for each map, no name bound
twice inside the maps, a map's own arrays (those it reads and those it produces) not bound inside
it, and a supply of names above all of these.
-/

set_option autoImplicit false

namespace MapNest

/-- The index and the parameters of a level, in order. -/
def Level.names (l : Level) : List Name := l.index :: Pattern.names l.params

/-- The names of a level are those that it binds. -/
theorem Level.mem_names {l : Level} {n : Name} : n ∈ l.names ↔ n ∈ l.bound := by
  rw [bound, NameSet.mem_ofList, names]

/-- The names bound inside a map: its index, its parameters, and the names that its body binds. -/
def Enclosing.names (e : Enclosing) : List Name :=
  e.level.index :: (Pattern.names e.level.params ++ e.letBound.toList)

/-- The maps of a nesting with their targets, the outermost first. -/
def Nesting.levels (nesting : Nesting) (targets : Targets) : List (Enclosing × Target) :=
  nesting.outer.zip targets.outer ++ [(nesting.inner, targets.inner)]

/-- What some maps around one another bind: where each one stands, the arrays of its target, and
inside it, its names. -/
def declared (levels : List (Enclosing × Target)) : List Name :=
  levels.flatMap fun x => Pattern.names (Target.pattern x.2) ++ x.1.names

/-- The maps with other targets in place of their own. -/
def retarget (levels : List (Enclosing × Target)) (targets : Targets) :
    List (Enclosing × Target) :=
  (levels.map (·.1)).zip targets.toList

/-- One map gets the one target. -/
@[simp] theorem retarget_single {e : Enclosing} {t t' : Target} :
    retarget [(e, t)] (.single t') = [(e, t')] := rfl

/-- The outermost map gets the outermost target. -/
@[simp] theorem retarget_pushOuter {e : Enclosing} {t t' : Target}
    {within : List (Enclosing × Target)} {targets : Targets} :
    retarget ((e, t) :: within) (targets.pushOuter t') = (e, t') :: retarget within targets := rfl

/-- A map with its new target comes from the map with its own. -/
theorem exists_of_mem_retarget {R : Enclosing × Target → Target → Prop}
    {levels : List (Enclosing × Target)} {targets : Targets}
    (h : List.Forall₂ R levels targets.toList) {y : Enclosing × Target}
    (hy : y ∈ retarget levels targets) : ∃ x ∈ levels, x.1 = y.1 ∧ R x y.2 := by
  rw [retarget] at hy
  generalize targets.toList = ts at h hy
  induction h with
  | nil => cases hy
  | @cons x t levels ts hhead _ ih =>
    rcases List.mem_cons.1 hy with rfl | hy
    · exact ⟨x, List.mem_cons_self .., rfl, hhead⟩
    · obtain ⟨x', hx', hR⟩ := ih hy
      exact ⟨x', List.mem_cons_of_mem _ hx', hR⟩

/-- What is bound inside a map that has some maps within. -/
def Enclosing.inside (e : Enclosing) (within : List (Enclosing × Target)) : List Name :=
  e.names ++ declared within

/-- A property of every map of a list, its target and the maps within. -/
def EachLevel (P : Enclosing → Target → List (Enclosing × Target) → Prop) :
    List (Enclosing × Target) → Prop
  | [] => True
  | (e, t) :: within => P e t within ∧ EachLevel P within

instance EachLevel.decidable {P : Enclosing → Target → List (Enclosing × Target) → Prop}
    [∀ e t within, Decidable (P e t within)] : ∀ levels, Decidable (EachLevel P levels)
  | [] => inferInstanceAs (Decidable True)
  | (e, t) :: within =>
    have := EachLevel.decidable (P := P) within
    inferInstanceAs (Decidable (P e t within ∧ EachLevel P within))

/-- Every name is bound once around the statements at hand, and the names from a tag on are
unused. -/
structure Consistent (nesting : Nesting) (targets : Targets) (next : Nat) : Prop where
  /-- There is one target for each map. -/
  depth_eq : nesting.depth = targets.depth
  /-- No two of the indices, parameters and names of the maps' bodies agree. -/
  nodup : (nesting.toList.flatMap Enclosing.names).Nodup
  /-- The arrays that a map reads are bound outside it. -/
  arrays : EachLevel (fun e _ within => ∀ r ∈ e.level.inputs, r.array ∉ e.inside within)
    (nesting.levels targets)
  /-- The arrays that a map produces are not bound inside it. -/
  patterns : EachLevel (fun e t within => ∀ o ∈ t, o.binder.name ∉ e.inside within)
    (nesting.levels targets)
  /-- What the maps bind has an earlier tag. -/
  tags_declared : ∀ n ∈ declared (nesting.levels targets), n.tag < next
  /-- What the maps mention has an earlier tag. -/
  tags_free : ∀ e ∈ nesting.toList, ∀ n ∈ e.level.free.toList, n.tag < next

namespace Enclosing

variable {e : Enclosing} {n : Name}

/-- The listed names of a map are those that it binds inside. -/
theorem mem_names : n ∈ e.names ↔ n ∈ e.bound := by
  rw [mem_bound, Level.mem_bound, names, List.mem_cons, List.mem_append,
    Level.mem_names_params, NameSet.mem_toList]
  constructor
  · rintro (h | h | h)
    · exact Or.inr (Or.inl h)
    · exact Or.inr (Or.inr h)
    · exact Or.inl h
  · rintro (h | h | h)
    · exact Or.inr (Or.inr h)
    · exact Or.inl h
    · exact Or.inr (Or.inl h)

/-- A map does not bind its index and its parameters twice if it binds nothing twice. -/
theorem nodup_params (h : e.names.Nodup) :
    (e.level.index :: Pattern.names e.level.params).Nodup := by
  rw [names, ← List.cons_append] at h
  exact (List.nodup_append.1 h).1

/-- What is bound inside a map is bound by it or declared by the maps within. -/
theorem mem_inside {within : List (Enclosing × Target)} :
    n ∈ e.inside within ↔ n ∈ e.bound ∨ n ∈ declared within := by
  rw [inside, List.mem_append, mem_names]

end Enclosing

/-- What holds of every map holds of the one at hand. -/
theorem EachLevel.of_eq_append {P : Enclosing → Target → List (Enclosing × Target) → Prop}
    {levels outer within : List (Enclosing × Target)} {e : Enclosing} {t : Target}
    (h : EachLevel P levels) (hl : levels = outer ++ (e, t) :: within) : P e t within := by
  subst hl
  induction outer with
  | nil => exact h.1
  | cons x outer ih => exact ih h.2

/-- What holds of a map wherever the list is taken apart holds of every map. -/
theorem EachLevel.of_forall {P : Enclosing → Target → List (Enclosing × Target) → Prop}
    {levels : List (Enclosing × Target)}
    (h : ∀ outer e t within, levels = outer ++ (e, t) :: within → P e t within) :
    EachLevel P levels := by
  induction levels with
  | nil => exact trivial
  | cons x levels ih =>
    exact ⟨h [] x.1 x.2 levels rfl, ih fun outer e t within hl =>
      h (x :: outer) e t within (congrArg (x :: ·) hl)⟩

/-- The outermost map declares its arrays, its own names and what is declared within. -/
theorem declared_cons {x : Enclosing × Target} {l : List (Enclosing × Target)} :
    declared (x :: l) = Pattern.names (Target.pattern x.2) ++ x.1.inside l := by
  rw [declared, List.flatMap_cons, Enclosing.inside, declared, List.append_assoc]

/-- Maps around others declare what both declare. -/
theorem mem_declared_append {l l' : List (Enclosing × Target)} {n : Name} :
    n ∈ declared (l ++ l') ↔ n ∈ declared l ∨ n ∈ declared l' := by
  rw [declared, List.flatMap_append, List.mem_append]
  rfl

/-- What is declared within a map is declared. -/
theorem mem_declared_cons_of_mem {x : Enclosing × Target} {l : List (Enclosing × Target)}
    {n : Name} (h : n ∈ declared l) : n ∈ declared (x :: l) :=
  mem_declared_append (l := [x]).2 (Or.inr h)

/-- The names that a map's body binds are declared. -/
theorem mem_declared_of_mem_letBound {e : Enclosing} {t : Target} {l : List (Enclosing × Target)}
    {n : Name} (h : n ∈ e.letBound) : n ∈ declared ((e, t) :: l) :=
  List.mem_flatMap.2 ⟨_, List.mem_cons_self .., List.mem_append_right _
    (Enclosing.mem_names.2 (Enclosing.mem_bound.2 (Or.inl h)))⟩

/-- The arrays of a target are those of its outputs. -/
theorem Target.mem_names_pattern {t : Target} {n : Name} :
    n ∈ Pattern.names (Target.pattern t) ↔ ∃ o ∈ t, o.binder.name = n := by
  rw [Pattern.names, Target.pattern, List.map_map, List.mem_map]
  rfl

namespace Nesting

variable {nesting : Nesting} {targets : Targets}

/-- The maps of the levels are those of the nesting. Without a target for each map some would be
missing. -/
theorem map_fst_levels (h : nesting.depth = targets.depth) :
    (nesting.levels targets).map (·.1) = nesting.toList := by
  have hlen : nesting.outer.length = targets.outer.length := by
    simpa [Stack.depth] using h
  rw [levels, List.map_append, List.map_fst_zip (Nat.le_of_eq hlen)]
  rfl

/-- Each map of the nesting has a target. -/
theorem mem_toList_iff (h : nesting.depth = targets.depth) {e : Enclosing} :
    e ∈ nesting.toList ↔ ∃ x ∈ nesting.levels targets, x.1 = e := by
  rw [← map_fst_levels h, List.mem_map]

/-- There are as many levels as maps. -/
theorem length_levels (h : nesting.depth = targets.depth) :
    (nesting.levels targets).length = nesting.depth := by
  rw [← Stack.length_toList, ← map_fst_levels h, List.length_map]

/-- The targets of the levels are all targets. -/
theorem map_snd_levels (h : nesting.depth = targets.depth) :
    (nesting.levels targets).map (·.2) = targets.toList := by
  have hlen : nesting.outer.length = targets.outer.length := by
    simpa [Stack.depth] using h
  rw [levels, List.map_append, List.map_snd_zip (Nat.le_of_eq hlen.symm)]
  rfl

/-- The map of a level, counted from the outermost. -/
theorem getElem?_fst_levels (h : nesting.depth = targets.depth) {k : Nat} {x : Enclosing × Target}
    (hx : (nesting.levels targets)[k]? = some x) : nesting.toList[k]? = some x.1 := by
  rw [← map_fst_levels h, List.getElem?_map, hx, Option.map_some]

/-- The target of a level, counted from the outermost. -/
theorem getElem?_snd_levels (h : nesting.depth = targets.depth) {k : Nat} {x : Enclosing × Target}
    (hx : (nesting.levels targets)[k]? = some x) : targets.toList[k]? = some x.2 := by
  rw [← map_snd_levels h, List.getElem?_map, hx, Option.map_some]

/-- A map and its target are one of the maps and one of the targets. -/
theorem mem_of_mem_levels (h : nesting.depth = targets.depth) {x : Enclosing × Target}
    (hx : x ∈ nesting.levels targets) : x.1 ∈ nesting.toList ∧ x.2 ∈ targets.toList := by
  rw [← map_fst_levels h, ← map_snd_levels h]
  exact ⟨List.mem_map_of_mem hx, List.mem_map_of_mem hx⟩

/-- The levels of a nesting with other targets. -/
theorem retarget_levels {targets' : Targets} (h : nesting.depth = targets.depth)
    (h' : nesting.depth = targets'.depth) :
    retarget (nesting.levels targets) targets' = nesting.levels targets' := by
  have hlen : nesting.outer.length = targets'.outer.length := by
    simpa [Stack.depth] using h'
  rw [retarget, map_fst_levels h, Stack.toList, Stack.toList, List.zip_append hlen]
  rfl

end Nesting

namespace Consistent

variable {nesting : Nesting} {targets : Targets} {next : Nat}
  {outer within : List (Enclosing × Target)} {e : Enclosing} {t : Target}

/-- The map of a level is one of the nesting. -/
theorem mem_toList (hc : Consistent nesting targets next)
    (hl : nesting.levels targets = outer ++ (e, t) :: within) : e ∈ nesting.toList := by
  refine (Nesting.mem_toList_iff hc.depth_eq).2 ⟨(e, t), ?_, rfl⟩
  rw [hl]
  exact List.mem_append_right _ (List.mem_cons_self ..)

/-- The arrays that a map reads are bound outside it. -/
theorem array_not_mem_inside (hc : Consistent nesting targets next)
    (hl : nesting.levels targets = outer ++ (e, t) :: within) {r : RowInput}
    (hr : r ∈ e.level.inputs) : r.array ∉ e.inside within :=
  hc.arrays.of_eq_append hl r hr

/-- The arrays that a map produces are bound outside it. -/
theorem output_not_mem_inside (hc : Consistent nesting targets next)
    (hl : nesting.levels targets = outer ++ (e, t) :: within) {o : Output}
    (ho : o ∈ t) : o.binder.name ∉ e.inside within :=
  hc.patterns.of_eq_append hl o ho

/-- A map binds no name twice. -/
theorem nodup_names (hc : Consistent nesting targets next)
    (hl : nesting.levels targets = outer ++ (e, t) :: within) : e.names.Nodup :=
  (List.nodup_flatMap.1 hc.nodup).1 e (hc.mem_toList hl)

/-- The index and the parameters of a map are distinct. -/
theorem nodup_params (hc : Consistent nesting targets next)
    (hl : nesting.levels targets = outer ++ (e, t) :: within) :
    (e.level.index :: Pattern.names e.level.params).Nodup :=
  Enclosing.nodup_params (hc.nodup_names hl)

/-- What a map binds is bound in the nest. -/
theorem mem_bound (hc : Consistent nesting targets next)
    (hl : nesting.levels targets = outer ++ (e, t) :: within) {n : Name} (hn : n ∈ e.bound) :
    n ∈ nesting.bound :=
  Nesting.mem_bound.2 ⟨e, hc.mem_toList hl, hn⟩

/-- What is bound in the nest is older than what will be drawn. -/
theorem tag_of_mem_bound (hc : Consistent nesting targets next) {n : Name}
    (hn : n ∈ nesting.bound) : n.tag < next := by
  obtain ⟨e, he, hn⟩ := Nesting.mem_bound.1 hn
  obtain ⟨x, hx, rfl⟩ := (Nesting.mem_toList_iff hc.depth_eq).1 he
  apply hc.tags_declared
  exact List.mem_flatMap.2 ⟨x, hx, List.mem_append_right _ (Enclosing.mem_names.2 hn)⟩

end Consistent

end MapNest
