import MapNest.Analysis.Consumed
import MapNest.Stack
import MapNest.Syntax.Text

/-!
# `MapNest.Nest.Level`: nests of maps

A `Level` is one map of a nest, without its body: its width, its index, and the arrays that its
parameters are rows of. Two stacks of levels occur. A `Nesting` holds the maps around the
statements that are to be moved, each with the names that its body binds (`Enclosing`). A
`KernelNest` holds the levels of a kernel that is being built.
-/

set_option autoImplicit false

namespace MapNest

/-- A parameter that holds a row of an array. -/
structure RowInput where
  /-- The parameter. -/
  param : Binder
  /-- The array. -/
  array : Name
deriving DecidableEq

/-- One map of a nest. -/
structure Level where
  /-- The arrays it produces. -/
  pattern : Pattern
  /-- The checks it rests on. -/
  checks : List Name
  /-- The number of its iterations. -/
  width : Operand
  /-- The number of an iteration. -/
  index : Name
  /-- Its parameters. -/
  inputs : List RowInput
deriving DecidableEq

namespace Level

/-- The parameters. -/
def params (l : Level) : List Binder := l.inputs.map (·.param)

/-- The arrays that the parameters are rows of. -/
def arrays (l : Level) : List Name := l.inputs.map (·.array)

/-- The index and the parameters. -/
def bound (l : Level) : NameSet := .ofList (l.index :: Pattern.names l.params)

/-- The names that the level itself mentions, but for those it binds. -/
def free (l : Level) : NameSet :=
  .ofList (Operand.names [l.width] ++ l.checks ++ Pattern.dimNames l.params ++ l.arrays) \ l.bound

/-- The arrays that go to unique parameters. -/
def consumed (l : Level) : NameSet :=
  .ofList (drawnUnique (l.inputs.map fun i => (i.param, i.array)))

/-- Drops the parameters that are not in use. -/
def restrict (l : Level) (used : NameSet) : Level :=
  { l with inputs := l.inputs.filter (·.param.name ∈ used) }

/-- The first parameter of a name. -/
def input? (l : Level) (n : Name) : Option RowInput := l.inputs.find? (·.param.name = n)

/-- The names of the parameters, by the rows that they stand for. -/
theorem mem_names_params {n : Name} {l : Level} :
    n ∈ Pattern.names l.params ↔ ∃ i ∈ l.inputs, i.param.name = n := by
  rw [Pattern.names, params, List.map_map, List.mem_map]
  rfl

/-- The sizes in the types of the parameters. -/
theorem mem_dimNames_params {n : Name} {l : Level} :
    n ∈ Pattern.dimNames l.params ↔ ∃ i ∈ l.inputs, .var n ∈ i.param.ty.dims := by
  rw [Pattern.dimNames, params, List.flatMap_map, List.mem_flatMap]
  simp only [Ty.mem_dimNames]

/-- A level binds its index and its parameters. -/
theorem mem_bound {n : Name} {l : Level} :
    n ∈ l.bound ↔ n = l.index ∨ ∃ i ∈ l.inputs, i.param.name = n := by
  rw [bound, NameSet.mem_ofList, List.mem_cons, mem_names_params]

/-- A level binds its index. -/
theorem index_mem_bound {l : Level} : l.index ∈ l.bound := mem_bound.2 (Or.inl rfl)

/-- A level binds each of its parameters. -/
theorem param_mem_bound {l : Level} {i : RowInput} (hi : i ∈ l.inputs) : i.param.name ∈ l.bound :=
  mem_bound.2 (Or.inr ⟨i, hi, rfl⟩)

/-- A level is free of its width, its checks, the sizes in its parameters' types and the arrays it
reads, as far as it does not bind them. The types of the arrays that it produces do not count. -/
theorem mem_free {n : Name} {l : Level} :
    n ∈ l.free ↔ (l.width = .var n ∨ n ∈ l.checks ∨ (∃ i ∈ l.inputs, .var n ∈ i.param.ty.dims) ∨
      ∃ i ∈ l.inputs, i.array = n) ∧ n ∉ l.bound := by
  rw [free, NameSet.mem_sdiff, NameSet.mem_ofList, List.mem_append, List.mem_append,
    List.mem_append, Operand.mem_names, List.mem_singleton, mem_dimNames_params, arrays,
    List.mem_map, or_assoc, or_assoc, eq_comm (a := l.width)]

/-- The input that is found under a name has that name. -/
theorem input?_eq_some {n : Name} {l : Level} {i : RowInput} (h : l.input? n = some i) :
    i ∈ l.inputs ∧ i.param.name = n :=
  ⟨List.mem_of_find?_eq_some h, by simpa using List.find?_some h⟩

/-- No input is found exactly if none has the name. -/
theorem input?_eq_none_iff {n : Name} {l : Level} :
    l.input? n = none ↔ ∀ i ∈ l.inputs, i.param.name ≠ n := by
  simp [input?]

/-- The map with its parameters, on one line. -/
def text (depth : Nat) (l : Level) : String :=
  indentation depth ++ Pattern.text l.pattern ++ " = " ++ checksText l.checks ++ "map " ++
    l.index.text ++ " < " ++ l.width.text ++ " (" ++
    commaList (l.inputs.map fun i => i.param.text ++ " <- " ++ i.array.text) ++ ")"

end Level

/-- A map around the statements at hand, and the names bound in its body before them. -/
structure Enclosing where
  /-- The names that the statements of the map's body bind. -/
  letBound : NameSet
  /-- The map. -/
  level : Level
deriving DecidableEq

/-- All that is bound at a level. -/
def Enclosing.bound (e : Enclosing) : NameSet := e.letBound ∪ e.level.bound

/-- A map binds the names of its body besides those of its level. -/
theorem Enclosing.mem_bound {n : Name} {e : Enclosing} :
    n ∈ e.bound ↔ n ∈ e.letBound ∨ n ∈ e.level.bound :=
  NameSet.mem_union

/-- A map binds its index. -/
theorem Enclosing.index_mem_bound {e : Enclosing} : e.level.index ∈ e.bound :=
  mem_bound.2 (Or.inr Level.index_mem_bound)

/-- A map binds each of its parameters. -/
theorem Enclosing.param_mem_bound {e : Enclosing} {i : RowInput} (hi : i ∈ e.level.inputs) :
    i.param.name ∈ e.bound :=
  mem_bound.2 (Or.inr (Level.param_mem_bound hi))

/-- Notes names as bound in the map's body. -/
def Enclosing.letBind (names : List Name) (e : Enclosing) : Enclosing :=
  { e with letBound := e.letBound ∪ .ofList names }

/-- The maps around the statements at hand. -/
abbrev Nesting := Stack Enclosing

/-- All that is bound anywhere in a nesting. -/
def Nesting.bound (n : Nesting) : NameSet := .unions (n.toList.map Enclosing.bound)

/-- A nest binds what one of its maps binds. -/
theorem Nesting.mem_bound {n : Name} {nesting : Nesting} :
    n ∈ nesting.bound ↔ ∃ e ∈ nesting.toList, n ∈ e.bound := by
  rw [bound, NameSet.mem_unions]
  constructor
  · rintro ⟨s, hs, hn⟩
    obtain ⟨e, he, rfl⟩ := List.mem_map.1 hs
    exact ⟨e, he, hn⟩
  · rintro ⟨e, he, hn⟩
    exact ⟨e.bound, List.mem_map_of_mem he, hn⟩

/-- The levels of a kernel. -/
abbrev KernelNest := Stack Level

namespace KernelNest

/-- The widths of the levels, outermost first. -/
def widths (n : KernelNest) : List Operand := n.toList.map (·.width)

/-- The indices and parameters of all levels. -/
def bound (n : KernelNest) : NameSet := .unions (n.toList.map Level.bound)

/-- The levels, a line each, every level one step deeper than the one around it. -/
def text (depth : Nat) (n : KernelNest) : String :=
  "\n".intercalate (n.toList.zipIdx.map fun (l, k) => l.text (depth + k))

end KernelNest

end MapNest
