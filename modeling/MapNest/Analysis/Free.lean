import MapNest.Analysis.Bound

/-!
# `MapNest.Analysis.Free`: the names that a program reads

A name is free in a piece of syntax when the piece mentions it and does not bind it; the sizes in
types count as mentions. A loop binds its index and its carried values, a function its index and
parameters, a kernel its indices and parameters, and a statement binds its pattern for the
statements after it, but not for the types of that pattern.

What is known to be bound by a loop is not counted at all: the names it returns, and the condition
of a loop that runs while a carried value holds.
-/

set_option autoImplicit false

namespace MapNest

/-- The names that an operation mentions, in the order of writing. -/
def Op.mentions : Op → List Name
  | value v => Operand.names [v]
  | arith _ _ left right => Operand.names [left, right]
  | index checks array indices => checks ++ array :: Operand.names indices
  | iota count => Operand.names [count]
  | replicate count v => Operand.names [count, v]
  | rearrange checks _ array => checks ++ [array]
  | reshape checks shape array => checks ++ Operand.names (shape.map NewDim.size) ++ [array]
  | copy array => [array]

/-- The names free in an operation. -/
def Op.free (o : Op) : NameSet := .ofList o.mentions

mutual

/-- The names free in an expression. -/
def Exp.free : Exp → NameSet
  | .op o => o.free
  | .update checks source indices value =>
    .ofList (checks ++ source :: Operand.names (indices ++ [value]))
  | .loop l => l.free
  | .map checks width function arrays =>
    function.free ∪ .ofList (checks ++ Operand.names [width] ++ arrays)
  | .kernel k => k.free

/-- The names free in a loop. Initial values and the bound stand outside the loop's own names. -/
def Loop.free : Loop → NameSet
  | ⟨_, merge, form, body⟩ =>
    let params := merge.map (·.param)
    ((body.free ∪ .ofList (Pattern.dimNames params)) \
        .ofList (Pattern.names form.binders ++ Pattern.names params)) ∪
      .ofList (Operand.names (merge.map (·.init) ++ form.bounds))

/-- The names free in a function. -/
def Lambda.free : Lambda → NameSet
  | ⟨index, params, body, returns⟩ =>
    (body.free ∪ .ofList (Pattern.dimNames params ++ returns.flatMap Ty.dimNames)) \
      .ofList (index :: Pattern.names params)

/-- The names free in a kernel. -/
def Kernel.free : Kernel → NameSet
  | ⟨checks, width, thread, space, inputs, returns, body⟩ =>
    let params := inputs.map (·.param)
    (body.free ∪
        .ofList (checks ++ Operand.names (width :: space.map (·.size)) ++ inputs.map (·.array) ++
          Operand.names (inputs.flatMap (·.indices)) ++ Pattern.dimNames params ++
          returns.flatMap (·.ty.dimNames))) \
      .ofList (thread :: space.map (·.index) ++ Pattern.names params)

/-- The names free in a body. -/
def Body.free : Body → NameSet
  | .yield values => .ofList (Operand.names values)
  | .bind pattern exp rest =>
    exp.free ∪ .ofList (Pattern.dimNames pattern) ∪ (rest.free \ .ofList (Pattern.names pattern))

end

namespace Stm

/-- The names free in a statement: those of its expression and of its pattern's types. -/
def free (s : Stm) : NameSet := s.exp.free ∪ .ofList (Pattern.dimNames s.pattern)

/-- The names free in a list of statements. -/
def freeAll : List Stm → NameSet
  | [] => ∅
  | s :: rest => s.free ∪ (freeAll rest \ .ofList (Pattern.names s.pattern))

end Stm

/-- What is free in a body is free in its statements, or yielded and bound by none of them. -/
theorem Body.mem_free_iff {n : Name} : ∀ {b : Body},
    n ∈ b.free ↔ n ∈ Stm.freeAll b.stms ∨ (Operand.var n ∈ b.result ∧ n ∉ Stm.bound b.stms)
  | .yield values => by
    simp [Body.free, Body.stms, Body.result, Stm.freeAll]
  | .bind pattern exp rest => by
    have ih := Body.mem_free_iff (n := n) (b := rest)
    simp only [Body.free, Body.stms, Body.result, Stm.freeAll, Stm.free, NameSet.mem_union,
      NameSet.mem_sdiff, ih, Stm.mem_bound, NameSet.mem_ofList, Pattern.mem_names, List.mem_cons,
      exists_eq_or_imp]
    grind

end MapNest
