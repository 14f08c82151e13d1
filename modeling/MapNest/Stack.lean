/-!
# `MapNest.Stack`: nonempty stacks of levels

What is known of a nest is kept level by level. A `Stack` holds one item for each level, so it is
never empty; its innermost item is the one at hand, and the others are listed from the outermost
inward. It is seen through `Stack.toList`, outermost first.
-/

set_option autoImplicit false

namespace MapNest

/-- One item for each level of a nest. -/
@[ext] structure Stack (α : Type) where
  /-- The items of the levels around the innermost one, outermost first. -/
  outer : List α
  /-- The item of the innermost level. -/
  inner : α
deriving DecidableEq

namespace Stack

variable {α β : Type}

/-- All items, outermost first. -/
def toList (s : Stack α) : List α := s.outer ++ [s.inner]

/-- The stack of one level. -/
def single (a : α) : Stack α := ⟨[], a⟩

/-- The stack with the given items, outermost first. An empty list makes none. -/
def ofList? (l : List α) : Option (Stack α) :=
  l.getLast?.map fun inner => ⟨l.dropLast, inner⟩

/-- The stack with an outermost item and the items inside it, outermost first. -/
def ofCons (a : α) : List α → Stack α
  | [] => single a
  | b :: l => ⟨a :: (ofCons b l).outer, (ofCons b l).inner⟩

/-- The number of levels. -/
def depth (s : Stack α) : Nat := s.outer.length + 1

/-- The item of the outermost level. -/
def outermost (s : Stack α) : α := s.outer.headD s.inner

/-- Enters a level inside the innermost one. -/
def pushInner (s : Stack α) (a : α) : Stack α := ⟨s.outer ++ [s.inner], a⟩

/-- Adds a level around the outermost one. -/
def pushOuter (s : Stack α) (a : α) : Stack α := ⟨a :: s.outer, s.inner⟩

/-- Leaves the innermost level, unless it is the only one. -/
def popInner? (s : Stack α) : Option (α × Stack α) :=
  (ofList? s.outer).map fun rest => (s.inner, rest)

/-- Changes the item of the innermost level. -/
def mapInner (f : α → α) (s : Stack α) : Stack α := { s with inner := f s.inner }

/-- Changes every item. -/
def map (f : α → β) (s : Stack α) : Stack β := ⟨s.outer.map f, f s.inner⟩

/-- The one level. -/
@[simp] theorem toList_single {a : α} : (single a).toList = [a] := rfl

/-- The outermost item comes first. -/
@[simp] theorem toList_ofCons {a : α} {l : List α} : (ofCons a l).toList = a :: l := by
  induction l generalizing a with
  | nil => rfl
  | cons b l ih => exact congrArg (a :: ·) ih

/-- There is an item for each level. -/
@[simp] theorem length_toList {s : Stack α} : s.toList.length = s.depth := by
  simp [toList, depth]

/-- A level that is entered comes last. -/
@[simp] theorem toList_pushInner {s : Stack α} {a : α} :
    (s.pushInner a).toList = s.toList ++ [a] := rfl

/-- A level put around the others comes first. -/
@[simp] theorem toList_pushOuter {s : Stack α} {a : α} :
    (s.pushOuter a).toList = a :: s.toList := rfl

/-- Items are changed where they are. -/
@[simp] theorem toList_map {f : α → β} {s : Stack α} : (s.map f).toList = s.toList.map f := by
  simp [toList, map]

/-- A level that is entered makes one level more. -/
@[simp] theorem depth_pushInner {s : Stack α} {a : α} : (s.pushInner a).depth = s.depth + 1 := by
  simp [pushInner, depth]

/-- The outermost item is the first of all. There always is one. -/
theorem exists_toList_eq_cons (s : Stack α) : ∃ l, s.toList = s.outermost :: l := by
  obtain ⟨outer, inner⟩ := s
  cases outer with
  | nil => exact ⟨[], rfl⟩
  | cons a outer => exact ⟨outer ++ [inner], rfl⟩

/-- The outermost item is one of the items. -/
theorem outermost_mem (s : Stack α) : s.outermost ∈ s.toList := by
  obtain ⟨l, hl⟩ := s.exists_toList_eq_cons
  rw [hl]
  exact List.mem_cons_self ..

/-- The innermost item is one of the items. -/
theorem inner_mem (s : Stack α) : s.inner ∈ s.toList := by
  simp [toList]

/-- A stack is made of its items again. -/
theorem ofList?_toList {s : Stack α} : ofList? s.toList = some s := by
  simp [ofList?, toList]

/-- A stack made of a list has the items of the list. -/
theorem toList_of_ofList?_eq_some {l : List α} {s : Stack α} (h : ofList? l = some s) :
    s.toList = l := by
  obtain ⟨inner, hl, rfl⟩ := Option.map_eq_some_iff.1 h
  obtain ⟨outer, rfl⟩ := List.getLast?_eq_some_iff.1 hl
  simp [toList]

/-- Leaving the innermost level leaves one level less. -/
theorem depth_of_popInner?_eq_some {s s' : Stack α} {a : α} (h : s.popInner? = some (a, s')) :
    s.depth = s'.depth + 1 := by
  obtain ⟨rest, hrest, hpair⟩ := Option.map_eq_some_iff.1 h
  cases hpair
  rw [depth, ← toList_of_ofList?_eq_some hrest, length_toList]

/-- Only a stack of one level cannot be left. -/
theorem depth_of_popInner?_eq_none {s : Stack α} (h : s.popInner? = none) : s.depth = 1 := by
  have houter : ofList? s.outer = none := Option.map_eq_none_iff.1 h
  have hnil : s.outer = [] := List.getLast?_eq_none_iff.1 (Option.map_eq_none_iff.1 houter)
  rw [depth, hnil]
  rfl

/-- Entering a level and leaving it changes nothing. -/
theorem popInner?_pushInner {s : Stack α} {a : α} : (s.pushInner a).popInner? = some (a, s) := by
  simp [pushInner, popInner?, ofList?]

end Stack

end MapNest
