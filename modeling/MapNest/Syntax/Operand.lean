import MapNest.Name.Basic

/-!
# `MapNest.Syntax.Operand`: scalars, constants and operands

Operations take operands: a constant or the name of a value. Nothing nests inside an operand; every
intermediate value has a name of its own.
-/

set_option autoImplicit false

namespace MapNest

/-- The types of single values. -/
inductive Scalar where
  /-- Truth values. -/
  | bool
  /-- Signed 32-bit integers. -/
  | i32
  /-- Signed 64-bit integers. -/
  | i64
  /-- Floating-point numbers of 32 bits. -/
  | f32
  /-- Floating-point numbers of 64 bits. -/
  | f64
  /-- The results of run-time checks. -/
  | cert
deriving DecidableEq

/-- A constant. Floating-point constants are bit patterns, so that equal constants have equal
representations; `Const.valueEq` compares them as numbers. -/
inductive Const where
  /-- A truth value. -/
  | bool (b : Bool)
  /-- A 32-bit integer. -/
  | i32 (n : Int32)
  /-- A 64-bit integer. -/
  | i64 (n : Int64)
  /-- The pattern of a 32-bit float. -/
  | f32 (bits : UInt32)
  /-- The pattern of a 64-bit float. -/
  | f64 (bits : UInt64)
  /-- The result of a check that always holds. -/
  | checked
deriving DecidableEq

/-- The type of a constant. -/
def Const.scalar : Const → Scalar
  | bool _ => .bool
  | i32 _ => .i32
  | i64 _ => .i64
  | f32 _ => .f32
  | f64 _ => .f64
  | checked => .cert

/-- An argument of an operation. -/
inductive Operand where
  /-- A constant. -/
  | const (value : Const)
  /-- The value of a name. -/
  | var (name : Name)
deriving DecidableEq

namespace Operand

/-- A 32-bit integer as an operand. -/
def ofInt32 (n : Int32) : Operand := .const (.i32 n)

/-- The name of a variable; a constant has none. -/
def name? : Operand → Option Name
  | var n => some n
  | const _ => none

/-- An operand has a name exactly if it is that name. -/
@[simp] theorem name?_eq_some_iff {v : Operand} {n : Name} : v.name? = some n ↔ v = .var n := by
  cases v <;> simp [name?]

/-- The names among a list of operands, in order. -/
def names (l : List Operand) : List Name := l.filterMap name?

/-- The names in some operands are the operands that are names. -/
@[simp] theorem mem_names {l : List Operand} {n : Name} : n ∈ names l ↔ Operand.var n ∈ l := by
  simp [names]

end Operand

end MapNest
