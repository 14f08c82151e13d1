import MapNest.Float.Shortest
import MapNest.Syntax.Exp

/-!
# `MapNest.Syntax.Text`: how programs are written

Each kind of syntax has one written form. A statement starts at a given depth of indentation, two
blanks for each step, and the bodies inside it stand one step deeper.
-/

set_option autoImplicit false

namespace MapNest

/-- Items separated by commas. -/
def commaList (items : List String) : String := ", ".intercalate items

/-- Text between braces. -/
def braced (s : String) : String := "\x7b" ++ s ++ "\x7d"

/-- The blanks at the start of a line. -/
def indentation (depth : Nat) : String := String.join (List.replicate depth "  ")

/-- The word for a scalar type. -/
def Scalar.text : Scalar → String
  | bool => "bool"
  | i32 => "i32"
  | i64 => "i64"
  | f32 => "f32"
  | f64 => "f64"
  | cert => "cert"

/-- A constant, followed by its type where the digits alone would not tell it. -/
def Const.text : Const → String
  | bool b => if b then "true" else "false"
  | i32 n => toString n.toInt
  | i64 n => toString n.toInt ++ "i64"
  | f32 bits => (FloatFormat.binary32.decode bits.toNat).text ++ "f32"
  | f64 bits => (FloatFormat.binary64.decode bits.toNat).text ++ "f64"
  | checked => "checked"

/-- A constant, or the text of the name. -/
def Operand.text : Operand → String
  | const c => c.text
  | var n => n.text

/-- Operands separated by commas. -/
def Operand.listText (l : List Operand) : String := commaList (l.map Operand.text)

/-- Names separated by commas. -/
def Name.listText (l : List Name) : String := commaList (l.map Name.text)

/-- The sizes in brackets before the type of the elements, marked by a star if the array is
unique. -/
def Ty.text : Ty → String
  | scalar elem => elem.text
  | array elem dims unique =>
    (if unique then "*" else "") ++ String.join (dims.map fun d => "[" ++ d.text ++ "]") ++
      elem.text

/-- The name and its type. -/
def Binder.text (b : Binder) : String := b.name.text ++ ": " ++ b.ty.text

/-- Binders separated by commas. -/
def Binder.listText (l : List Binder) : String := commaList (l.map Binder.text)

/-- The binders of a pattern between braces. -/
def Pattern.text (p : Pattern) : String := braced (Binder.listText p)

/-- The checks that an operation rests on, written before it. -/
def checksText (checks : List Name) : String :=
  if checks.isEmpty then "" else "<" ++ Name.listText checks ++ "> "

/-- The sign of an arithmetic operation. -/
def Arith.text : Arith → String
  | add => "+"
  | sub => "-"
  | mul => "*"

/-- The size, marked if the array is known to have it. -/
def NewDim.text : NewDim → String
  | exact size => size.text
  | coercion size => "~" ++ size.text

/-- The call of an operation. -/
def Op.text : Op → String
  | value v => v.text
  | arith op ty left right => left.text ++ " " ++ op.text ++ ty.text ++ " " ++ right.text
  | index checks array indices =>
    checksText checks ++ array.text ++ "[" ++ Operand.listText indices ++ "]"
  | iota count => "iota(" ++ count.text ++ ")"
  | replicate count v => "replicate(" ++ count.text ++ ", " ++ v.text ++ ")"
  | rearrange checks perm array =>
    checksText checks ++ "rearrange((" ++ commaList (perm.map fun k => toString k) ++ "), " ++
      array.text ++ ")"
  | reshape checks shape array =>
    checksText checks ++ "reshape((" ++ commaList (shape.map NewDim.text) ++ "), " ++ array.text ++
      ")"
  | copy array => "copy(" ++ array.text ++ ")"

/-- A carried value with its start. -/
def Merge.text (m : Merge) : String := m.param.text ++ " = " ++ m.init.text

/-- How often a loop runs. -/
def LoopForm.text : LoopForm → String
  | forBelow index bound => "for " ++ index.text ++ " < " ++ bound.text
  | whileTrue cond => "while " ++ cond.text

/-- A dimension of an iteration space. -/
def Axis.text (a : Axis) : String := a.index.text ++ " < " ++ a.size.text

/-- What a kernel reads at a point. -/
def KernelInput.text (i : KernelInput) : String :=
  i.param.text ++ " <- " ++ i.array.text ++ "[" ++ Operand.listText i.indices ++ "]"

/-- A result of a kernel. -/
def KernelOutput.text (o : KernelOutput) : String :=
  o.ty.text ++ " over (" ++ commaList (o.axes.map fun k => toString k) ++ ")"

mutual

/-- An expression whose statement stands at a depth. -/
def Exp.text (depth : Nat) : Exp → String
  | .op o => o.text
  | .update checks source indices value =>
    checksText checks ++ source.text ++ " with [" ++ Operand.listText indices ++ "] <- " ++
      value.text
  | .loop l => l.text depth
  | .map checks width function arrays =>
    checksText checks ++ "map(" ++ width.text ++ ", " ++ Name.listText arrays ++ ", " ++
      function.text depth ++ ")"
  | .kernel k => k.text depth

/-- A loop, its body one step deeper. -/
def Loop.text (depth : Nat) : Loop → String
  | ⟨ret, merge, form, body⟩ =>
    "loop " ++ braced (Name.listText ret) ++ " = (" ++ commaList (merge.map Merge.text) ++ ") " ++
      form.text ++ " do\n" ++ body.text (depth + 1)

/-- A function, its body one step deeper. -/
def Lambda.text (depth : Nat) : Lambda → String
  | ⟨index, params, body, returns⟩ =>
    "fn " ++ index.text ++ " (" ++ Binder.listText params ++ ") : " ++
      braced (commaList (returns.map Ty.text)) ++ " =>\n" ++ body.text (depth + 1)

/-- A kernel, with its inputs, its results and its body one step deeper. -/
def Kernel.text (depth : Nat) : Kernel → String
  | ⟨checks, width, thread, space, inputs, returns, body⟩ =>
    checksText checks ++ "kernel(thread " ++ thread.text ++ ", width " ++ width.text ++
      ") over (" ++ commaList (space.map Axis.text) ++ ")\n" ++
      String.join (inputs.map fun i => indentation (depth + 1) ++ i.text ++ "\n") ++
      indentation (depth + 1) ++ "returns " ++ braced (commaList (returns.map KernelOutput.text)) ++
      "\n" ++ body.text (depth + 1)

/-- The statements of a body, a line each, and the line of its result. -/
def Body.text (depth : Nat) : Body → String
  | .yield values => indentation depth ++ "in " ++ braced (Operand.listText values)
  | .bind pattern exp rest =>
    indentation depth ++ "let " ++ Pattern.text pattern ++ " = " ++ exp.text depth ++ "\n" ++
      rest.text depth

end

/-- The pattern and what it is bound to. -/
def Stm.text (depth : Nat) (s : Stm) : String :=
  indentation depth ++ "let " ++ Pattern.text s.pattern ++ " = " ++ s.exp.text depth

end MapNest
