import MapNest.Name.Supply
import MapNest.Syntax.Subst

/-!
# `MapNest.Freshen`: fresh names for all that a statement binds inside

A program binds every name once. When a statement is copied or moved, what is bound inside its
expression takes fresh names of the same bases, while its pattern and its free names stay as they
are (`Stm.freshen`).

The expression is walked in the order in which its parts are evaluated. On the way the replacements
collected so far apply to every mention, and each binder adds one; a binder's type is read before
its name is replaced. Replacements are never dropped again: since names are bound once, a name has
no mention outside the scope of its binder.
-/

set_option autoImplicit false

namespace MapNest

/-- The state of the walk. -/
structure Freshening where
  /-- The replacements made so far. -/
  subst : Subst
  /-- Where fresh names come from. -/
  supply : Supply

/-- Steps of the walk. -/
abbrev FreshenM := EStateM Failure Freshening

namespace FreshenM

/-- The replacements made so far. -/
def subst : FreshenM Subst := fun st => .ok st.subst st

/-- Gives a bound name a fresh one in its place. -/
def replace (n : Name) : FreshenM Name := fun st =>
  match Supply.freshLike n st.supply with
  | .ok n' supply => .ok n' { subst := (n, n') :: st.subst, supply }
  | .error e supply => .error e { st with supply }

/-- Gives a binder a fresh name; the sizes in its type are read before. -/
def binder (b : Binder) : FreshenM Binder := do
  let ty := b.ty.subst (← subst)
  return ⟨← replace b.name, ty⟩

/-- Gives the binders of a list fresh names, in order. -/
def binders (l : List Binder) : FreshenM (List Binder) := l.mapM binder

/-- Gives a loop's index a fresh name. A condition is a carried value, which has been replaced
before. -/
def form : LoopForm → FreshenM LoopForm
  | .forBelow index bound => do
    let bound := bound.subst (← subst)
    return .forBelow (← replace index) bound
  | .whileTrue cond => do return .whileTrue (cond.subst (← subst))

/-- Gives the index of a dimension a fresh name. -/
def axis (a : Axis) : FreshenM Axis := do
  let size := a.size.subst (← subst)
  return ⟨← replace a.index, size⟩

/-- Gives a kernel's parameter a fresh name. The array it is read from is given. -/
def input (i : KernelInput × Name) : FreshenM KernelInput := do
  let indices := i.1.indices.map (Operand.subst (← subst))
  return ⟨← binder i.1.param, i.2, indices⟩

end FreshenM

mutual

/-- Gives fresh names to all that an expression binds. -/
def Exp.freshen : Exp → FreshenM Exp
  | .op o => do return .op (o.subst (← FreshenM.subst))
  | .update checks source indices value => do
    let σ ← FreshenM.subst
    return .update (checks.map (Name.subst σ)) (source.subst σ) (indices.map (Operand.subst σ))
      (value.subst σ)
  | .loop l => do return .loop (← l.freshen)
  | .map checks width function arrays => do
    let σ ← FreshenM.subst
    let function ← function.freshen
    return .map (checks.map (Name.subst σ)) (width.subst σ) function (arrays.map (Name.subst σ))
  | .kernel k => do return .kernel (← k.freshen)

/-- Gives fresh names to a loop's carried values, its index and all its body binds. Initial values
stand outside the loop. -/
def Loop.freshen : Loop → FreshenM Loop
  | ⟨ret, merge, form, body⟩ => do
    let σ ← FreshenM.subst
    let params ← FreshenM.binders (merge.map (·.param))
    let form ← FreshenM.form form
    let τ ← FreshenM.subst
    let body ← body.freshen
    return ⟨ret.map (Name.subst τ), params.zipWith Merge.mk (merge.map (·.init.subst σ)), form,
      body⟩

/-- Gives fresh names to a function's index, its parameters and all its body binds. -/
def Lambda.freshen : Lambda → FreshenM Lambda
  | ⟨index, params, body, returns⟩ => do
    let index ← FreshenM.replace index
    let params ← FreshenM.binders params
    let body ← body.freshen
    let σ ← FreshenM.subst
    return ⟨index, params, body, returns.map (Ty.subst σ)⟩

/-- Gives fresh names to a kernel's indices, its parameters and all its body binds. Its checks, its
width and the arrays it reads stand outside. -/
def Kernel.freshen : Kernel → FreshenM Kernel
  | ⟨checks, width, thread, space, inputs, returns, body⟩ => do
    let σ ← FreshenM.subst
    let space ← space.mapM FreshenM.axis
    let thread ← FreshenM.replace thread
    let inputs ← (inputs.map fun i => (i, i.array.subst σ)).mapM FreshenM.input
    let body ← body.freshen
    let τ ← FreshenM.subst
    return ⟨checks.map (Name.subst σ), width.subst σ, thread, space, inputs,
      returns.map (fun o => { o with ty := o.ty.subst τ }), body⟩

/-- Gives fresh names to all that a body binds. -/
def Body.freshen : Body → FreshenM Body
  | .yield values => do return .yield (values.map (Operand.subst (← FreshenM.subst)))
  | .bind pattern exp rest => do
    let exp ← exp.freshen
    let pattern ← FreshenM.binders pattern
    let rest ← rest.freshen
    return .bind pattern exp rest

end

/-- Gives fresh names to all that a statement's expression binds. -/
def Stm.freshen (s : Stm) : FreshM Stm := fun supply =>
  match s.exp.freshen { subst := [], supply } with
  | .ok exp st => .ok ⟨s.pattern, exp⟩ st.supply
  | .error e st => .error e st.supply

end MapNest
