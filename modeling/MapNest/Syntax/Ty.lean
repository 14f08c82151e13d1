import MapNest.Syntax.Operand

/-!
# `MapNest.Syntax.Ty`: types, binders and patterns

A type is a scalar or a regular array. The sizes of an array are operands, so a shape may depend on
a value; where that value belongs to an iteration, arrays collected over the iterations would have
rows of different shapes. A unique array may be overwritten in place.

A `Binder` is a name with its type, and a pattern lists the binders of one statement.
-/

set_option autoImplicit false

namespace MapNest

/-- A type of values. -/
inductive Ty where
  /-- One value. -/
  | scalar (elem : Scalar)
  /-- A regular array, its sizes listed from the outermost dimension inward. -/
  | array (elem : Scalar) (dims : List Operand) (unique : Bool)
deriving DecidableEq

namespace Ty

/-- The type of iteration indices. -/
def index : Ty := .scalar .i32

/-- The sizes of an array, outermost first. A scalar has none. -/
def dims : Ty → List Operand
  | scalar _ => []
  | array _ dims _ => dims

/-- The number of dimensions. -/
def rank (ty : Ty) : Nat := ty.dims.length

/-- The size of the outermost dimension. -/
def outerDim? (ty : Ty) : Option Operand := ty.dims.head?

/-- The names among the sizes. -/
def dimNames (ty : Ty) : List Name := Operand.names ty.dims

/-- Values of the type may be overwritten in place. -/
def isUnique : Ty → Bool
  | scalar _ => false
  | array _ _ unique => unique

/-- The same type, unique or not. A scalar stays as it is. -/
def withUnique (unique : Bool) : Ty → Ty
  | scalar elem => .scalar elem
  | array elem dims _ => .array elem dims unique

/-- The type of arrays with the given number of rows of a type. The array is unique if its rows
are. -/
def arrayOf (width : Operand) : Ty → Ty
  | scalar elem => .array elem [width] false
  | array elem dims unique => .array elem (width :: dims) unique

/-- The type without its outermost dimensions, a scalar once all are gone. -/
def dropDims (n : Nat) : Ty → Ty
  | scalar elem => .scalar elem
  | array elem dims unique =>
    if dims.length ≤ n then .scalar elem else .array elem (dims.drop n) unique

/-- The type of a row. A scalar is its own row. -/
def row (ty : Ty) : Ty := ty.dropDims 1

/-- An array of arrays has the new size in front of the others. -/
@[simp] theorem dims_arrayOf {width : Operand} {ty : Ty} :
    (ty.arrayOf width).dims = width :: ty.dims := by
  cases ty <;> rfl

/-- An array is unique if its elements were. -/
@[simp] theorem isUnique_arrayOf {width : Operand} {ty : Ty} :
    (ty.arrayOf width).isUnique = ty.isUnique := by
  cases ty <;> rfl

/-- Uniqueness has nothing to do with sizes. -/
@[simp] theorem dims_withUnique {unique : Bool} {ty : Ty} :
    (ty.withUnique unique).dims = ty.dims := by
  cases ty <;> rfl

/-- The dimensions left are those behind the ones dropped. -/
@[simp] theorem dims_dropDims {n : Nat} {ty : Ty} : (ty.dropDims n).dims = ty.dims.drop n := by
  cases ty with
  | scalar elem => simp [dropDims, dims]
  | array elem ds unique =>
    simp only [dropDims]
    split
    · rename_i h
      simp [dims, List.drop_eq_nil_of_le h]
    · rfl

/-- A type mentions a name if it is one of the sizes. -/
@[simp] theorem mem_dimNames {n : Name} {ty : Ty} : n ∈ ty.dimNames ↔ Operand.var n ∈ ty.dims :=
  Operand.mem_names

end Ty

/-- A name with its type: a parameter, or one of the names that a statement binds. -/
@[ext] structure Binder where
  /-- The name bound. -/
  name : Name
  /-- The type of its values. -/
  ty : Ty
deriving DecidableEq

/-- The same binder with a type that may not be overwritten in place. -/
def Binder.readOnly (b : Binder) : Binder := { b with ty := b.ty.withUnique false }

/-- The names that a statement binds, in order. -/
abbrev Pattern := List Binder

namespace Pattern

/-- The names of a pattern. -/
def names (p : Pattern) : List Name := p.map (·.name)

/-- The types of a pattern. -/
def types (p : Pattern) : List Ty := p.map (·.ty)

/-- The names among the sizes in a pattern's types. -/
def dimNames (p : Pattern) : List Name := p.flatMap (·.ty.dimNames)

/-- The position of the first binder of a name. -/
def position? (p : Pattern) (n : Name) : Option Nat := p.findIdx? (·.name = n)

/-- The operands that return exactly the names of a pattern. -/
def operands (p : Pattern) : List Operand := p.map fun b => .var b.name

/-- A pattern binds the names of its binders. -/
@[simp] theorem mem_names {p : Pattern} {n : Name} : n ∈ Pattern.names p ↔ ∃ b ∈ p, b.name = n :=
  List.mem_map

/-- Patterns side by side bind the names of both, in order. -/
theorem names_append {p q : Pattern} : names (p ++ q) = names p ++ names q :=
  List.map_append

/-- The types of a pattern mention what one of them mentions. -/
@[simp] theorem mem_dimNames {p : Pattern} {n : Name} :
    n ∈ Pattern.dimNames p ↔ ∃ b ∈ p, Operand.var n ∈ b.ty.dims := by
  simp [Pattern.dimNames]

end Pattern

end MapNest
