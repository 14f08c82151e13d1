import MapNest.Name.Supply
import MapNest.Nest.Level
import MapNest.Scope

/-!
# `MapNest.Builder`: putting programs together

A `Builder` hands out names and keeps the types of those that have one, which is what it takes to
write a small program by hand. The types and statements that occur most often have short forms
here.
-/

set_option autoImplicit false

namespace MapNest

/-- Fresh names, and the types given to them. -/
structure Builder where
  /-- Where names come from. -/
  supply : Supply := {}
  /-- The types given so far. -/
  scope : Scope := ∅

/-- The steps of putting a program together. -/
abbrev BuilderM := EStateM Failure Builder

namespace BuilderM

/-- A fresh name without a type. -/
def name (base : String) : BuilderM Name := fun st =>
  match Supply.fresh base st.supply with
  | .ok n supply => .ok n { st with supply }
  | .error e supply => .error e { st with supply }

/-- A fresh name with a type. -/
def binder (base : String) (ty : Ty) : BuilderM Binder := do
  let b : Binder := ⟨← name base, ty⟩
  modify fun st => { st with scope := st.scope.insert b }
  return b

/-- The type given to a name. -/
def typeOf? (n : Name) : BuilderM (Option Ty) := do return (← get).scope.lookup? n

end BuilderM

/-- Arrays of 32-bit integers. -/
def Ty.ints (dims : List Operand) : Ty := .array .i32 dims false

/-- Arrays of 32-bit integers that may be overwritten in place. -/
def Ty.uniqueInts (dims : List Operand) : Ty := .array .i32 dims true

/-- Binds a pattern to a map without checks, whose function returns rows of the pattern's types. -/
def Stm.map (pattern : Pattern) (width : Operand) (index : Name) (inputs : List RowInput)
    (body : Body) : Stm :=
  let function : Lambda :=
    { index, params := inputs.map (·.param), body, returns := pattern.map (·.ty.row) }
  ⟨pattern, .map [] width function (inputs.map (·.array))⟩

end MapNest
