import MapNest.Syntax.Ty

/-!
# `MapNest.Syntax.Exp`: expressions, bodies and statements

A body is a chain of bindings that ends in the values it yields. The expression bound by a step is
a single operation, an update in place, a sequential loop, a parallel map or a flat kernel; only
loops, maps and kernels hold bodies of their own.

Operations that rest on run-time checks list the names of those checks; an operation may run once
they hold.
-/

set_option autoImplicit false

namespace MapNest

/-- Arithmetic on scalars. -/
inductive Arith where
  /-- The sum. -/
  | add
  /-- The difference. -/
  | sub
  /-- The product. -/
  | mul
deriving DecidableEq

/-- One size in the shape that an array is given. -/
inductive NewDim where
  /-- The dimension takes this size. -/
  | exact (size : Operand)
  /-- The dimension has this size already. -/
  | coercion (size : Operand)
deriving DecidableEq

/-- The size of a dimension, however it is given. -/
def NewDim.size : NewDim → Operand
  | exact size => size
  | coercion size => size

/-- An operation without a body. -/
inductive Op where
  /-- The operand itself. -/
  | value (v : Operand)
  /-- Arithmetic on two scalars of a type. -/
  | arith (op : Arith) (ty : Scalar) (left right : Operand)
  /-- The part of an array at some leading indices. -/
  | index (checks : List Name) (array : Name) (indices : List Operand)
  /-- The numbers from zero to below a count. -/
  | iota (count : Operand)
  /-- An array of copies of one value. -/
  | replicate (count value : Operand)
  /-- An array with its dimensions permuted. -/
  | rearrange (checks : List Name) (perm : List Nat) (array : Name)
  /-- The elements of an array in another shape. -/
  | reshape (checks : List Name) (shape : List NewDim) (array : Name)
  /-- A new array with the same contents. -/
  | copy (array : Name)
deriving DecidableEq

/-- A value carried from one iteration of a loop to the next. -/
structure Merge where
  /-- The name of the value within the loop. -/
  param : Binder
  /-- Its value before the first iteration. -/
  init : Operand
deriving DecidableEq

/-- How often a loop runs. -/
inductive LoopForm where
  /-- Once for each index below a bound. -/
  | forBelow (index : Name) (bound : Operand)
  /-- As long as a carried value is true. -/
  | whileTrue (cond : Name)
deriving DecidableEq

/-- The binder of the loop's index, if it counts. -/
def LoopForm.binders : LoopForm → List Binder
  | forBelow index _ => [⟨index, .index⟩]
  | whileTrue _ => []

/-- The bound of a counting loop. -/
def LoopForm.bounds : LoopForm → List Operand
  | forBelow _ bound => [bound]
  | whileTrue _ => []

/-- One dimension of a kernel's iteration space. -/
structure Axis where
  /-- The index of an iteration along the dimension. -/
  index : Name
  /-- The number of iterations. -/
  size : Operand
deriving DecidableEq

/-- A parameter of a kernel: at each point it holds an array's part at some indices. -/
structure KernelInput where
  /-- The parameter. -/
  param : Binder
  /-- The array it is read from. -/
  array : Name
  /-- The indices of the part that is read. -/
  indices : List Operand
deriving DecidableEq

/-- A result of a kernel. -/
structure KernelOutput where
  /-- The type at one point. -/
  ty : Ty
  /-- The dimensions of the iteration space that it ranges over. -/
  axes : List Nat
deriving DecidableEq

mutual

/-- What a statement computes. -/
inductive Exp where
  /-- A single operation. -/
  | op (op : Op)
  /-- An array with the part at some indices overwritten; the old array may not be used again. -/
  | update (checks : List Name) (source : Name) (indices : List Operand) (value : Operand)
  /-- A sequential loop. -/
  | loop (loop : Loop)
  /-- A function applied to each row of some arrays of one width. -/
  | map (checks : List Name) (width : Operand) (function : Lambda) (arrays : List Name)
  /-- A flat kernel. -/
  | kernel (kernel : Kernel)

/-- A sequential loop. Its body yields the next value of each carried one. -/
structure Loop where
  /-- The carried values whose last value the loop returns. -/
  ret : List Name
  /-- The carried values. -/
  merge : List Merge
  /-- How often it runs. -/
  form : LoopForm
  /-- One iteration. -/
  body : Body

/-- The function of a map. -/
structure Lambda where
  /-- The number of the row. -/
  index : Name
  /-- One parameter for each array, which holds a row of it. -/
  params : List Binder
  /-- The work on one row. -/
  body : Body
  /-- The types of the results. -/
  returns : List Ty

/-- A flat kernel: its body runs once at each point of its iteration space. -/
structure Kernel where
  /-- The checks it rests on. -/
  checks : List Name
  /-- The number of points. -/
  width : Operand
  /-- The number of a point among all points. -/
  thread : Name
  /-- The iteration space, outermost dimension first. -/
  space : List Axis
  /-- What is read at a point. -/
  inputs : List KernelInput
  /-- The types of the results. -/
  returns : List KernelOutput
  /-- The work at one point. -/
  body : Body

/-- A chain of bindings and the values it yields. -/
inductive Body where
  /-- The end of the chain. -/
  | yield (values : List Operand)
  /-- Binds a pattern to an expression in the rest of the chain. -/
  | bind (pattern : Pattern) (exp : Exp) (rest : Body)

end

deriving instance DecidableEq for Exp, Loop, Lambda, Kernel, Body

/-- A pattern bound to an expression. -/
structure Stm where
  /-- The names bound. -/
  pattern : Pattern
  /-- What they are bound to. -/
  exp : Exp
deriving DecidableEq

namespace Body

/-- The statements of a chain. -/
def stms : Body → List Stm
  | yield _ => []
  | bind p e rest => ⟨p, e⟩ :: rest.stms

/-- The values that a chain yields. -/
def result : Body → List Operand
  | yield values => values
  | bind _ _ rest => rest.result

/-- The chain of some statements that yields some values. -/
def ofStms (stms : List Stm) (values : List Operand) : Body :=
  stms.foldr (fun s rest => .bind s.pattern s.exp rest) (.yield values)

/-- The body of one statement that yields all it binds. -/
def ofStm (s : Stm) : Body := ofStms [s] (Pattern.operands s.pattern)

/-- A body of no statements yields at once. -/
@[simp] theorem ofStms_nil {values : List Operand} : ofStms [] values = .yield values := rfl

/-- The first statement binds its pattern for the rest of the body. -/
@[simp] theorem ofStms_cons {s : Stm} {l : List Stm} {values : List Operand} :
    ofStms (s :: l) values = .bind s.pattern s.exp (ofStms l values) := rfl

/-- A body has the statements that it is made of. -/
@[simp] theorem stms_ofStms {l : List Stm} {values : List Operand} :
    (ofStms l values).stms = l := by
  induction l with
  | nil => rfl
  | cons s l ih => simp [stms, ih]

/-- A body yields the values that it is made with. -/
@[simp] theorem result_ofStms {l : List Stm} {values : List Operand} :
    (ofStms l values).result = values := by
  induction l with
  | nil => rfl
  | cons s l ih => simp [result, ih]

/-- A body is made of its statements and its result again. -/
@[simp] theorem ofStms_stms_result : ∀ b : Body, ofStms b.stms b.result = b
  | yield _ => rfl
  | bind _ _ rest => by simp [stms, result, ofStms_stms_result rest]

end Body

namespace Stm

/-- Binds one name to an operation. -/
def ofOp (b : Binder) (op : Op) : Stm := ⟨[b], .op op⟩

/-- Binds a name to arithmetic on two operands. -/
def arith (op : Arith) (name : Name) (ty : Scalar) (left right : Operand) : Stm :=
  ofOp ⟨name, .scalar ty⟩ (.arith op ty left right)

/-- Binds a name to a copy of an array. -/
def copy (b : Binder) (array : Name) : Stm := ofOp b (.copy array)

/-- Binds a name to an array of copies of a value. -/
def replicate (b : Binder) (count value : Operand) : Stm := ofOp b (.replicate count value)

/-- Binds a name to an array with its dimensions permuted, without checks. -/
def rearrange (b : Binder) (perm : List Nat) (array : Name) : Stm :=
  ofOp b (.rearrange [] perm array)

end Stm

end MapNest
