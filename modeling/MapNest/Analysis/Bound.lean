import MapNest.Name.Set
import MapNest.Syntax.Exp

/-!
# `MapNest.Analysis.Bound`: the names that a program binds

`Stm.binders` lists every name bound anywhere in a statement with its type: the statement's own
pattern first, then what its expression binds, indices having the type of indices. A list of
statements also binds names for the statements after it, those of its patterns
(`Stm.patternNames`).
-/

set_option autoImplicit false

namespace MapNest

mutual

/-- The names bound inside an expression. -/
def Exp.binders : Exp → List Binder
  | .op _ => []
  | .update _ _ _ _ => []
  | .loop l => l.binders
  | .map _ _ function _ => function.binders
  | .kernel k => k.binders

/-- The carried values of a loop, its index, and the names bound in its body. -/
def Loop.binders : Loop → List Binder
  | ⟨_, merge, form, body⟩ => merge.map (·.param) ++ form.binders ++ body.binders

/-- The index of a function, its parameters, and the names bound in its body. -/
def Lambda.binders : Lambda → List Binder
  | ⟨index, params, body, _⟩ => ⟨index, .index⟩ :: params ++ body.binders

/-- The indices of a kernel, its parameters, and the names bound in its body. -/
def Kernel.binders : Kernel → List Binder
  | ⟨_, _, thread, space, inputs, _, body⟩ =>
    ⟨thread, .index⟩ :: space.map (fun a => ⟨a.index, .index⟩) ++ inputs.map (·.param) ++
      body.binders

/-- The names bound anywhere in a body. -/
def Body.binders : Body → List Binder
  | .yield _ => []
  | .bind pattern exp rest => pattern ++ exp.binders ++ rest.binders

end

namespace Stm

/-- The names bound anywhere in a statement. -/
def binders (s : Stm) : List Binder := s.pattern ++ s.exp.binders

/-- The names that the patterns of some statements bind. -/
def patternNames (stms : List Stm) : List Name := stms.flatMap fun s => Pattern.names s.pattern

/-- The set of the names that the patterns of some statements bind. -/
def bound (stms : List Stm) : NameSet := .ofList (patternNames stms)

/-- Statements bind the names of their patterns. -/
@[simp] theorem mem_bound {n : Name} {stms : List Stm} :
    n ∈ bound stms ↔ ∃ s ∈ stms, ∃ b ∈ s.pattern, b.name = n := by
  simp [bound, patternNames]

end Stm

end MapNest
