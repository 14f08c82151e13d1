import MapNest.Analysis.Bound

/-!
# `MapNest.Analysis.Consumed`: the names whose values are overwritten

An update in place consumes the array it starts from. A map, kernel or loop consumes what it gives
to a unique parameter: the array a parameter is a row of, or the value a carried one starts with;
the parameter itself is gone outside. A list of statements consumes what its members consume, but
for the names that its patterns bind.
-/

set_option autoImplicit false

namespace MapNest

/-- The arrays that go to unique parameters. -/
def drawnUnique (pairs : List (Binder × Name)) : List Name :=
  (pairs.filter (·.1.ty.isUnique)).map (·.2)

mutual

/-- The names consumed by an expression. -/
def Exp.consumed : Exp → NameSet
  | .op _ => ∅
  | .update _ source _ _ => {source}
  | .loop l => l.consumed
  | .map _ _ function arrays => function.consumed arrays
  | .kernel k => k.consumed

/-- The names consumed by a loop. -/
def Loop.consumed : Loop → NameSet
  | ⟨_, merge, _, body⟩ =>
    (body.consumed \ .ofList (merge.map (·.param.name))) ∪
      .ofList (Operand.names ((merge.filter (·.param.ty.isUnique)).map (·.init)))

/-- The names consumed by a function applied to some arrays. -/
def Lambda.consumed (arrays : List Name) : Lambda → NameSet
  | ⟨_, params, body, _⟩ =>
    (body.consumed \ .ofList (Pattern.names params)) ∪ .ofList (drawnUnique (params.zip arrays))

/-- The names consumed by a kernel. -/
def Kernel.consumed : Kernel → NameSet
  | ⟨_, _, _, _, inputs, _, body⟩ =>
    (body.consumed \ .ofList (inputs.map (·.param.name))) ∪
      .ofList (drawnUnique (inputs.map fun i => (i.param, i.array)))

/-- The names consumed by a body and bound outside it. A statement may not consume what a later one
binds, so those names are left out as well. -/
def Body.consumed : Body → NameSet
  | .yield _ => ∅
  | .bind pattern exp rest =>
    ((exp.consumed \ Stm.bound rest.stms) ∪ rest.consumed) \ .ofList (Pattern.names pattern)

end

namespace Stm

/-- The names consumed by a statement. -/
def consumed (s : Stm) : NameSet := s.exp.consumed

/-- The names consumed by some statements and bound by none of their patterns. -/
def consumedAll (stms : List Stm) : NameSet := NameSet.unions (stms.map consumed) \ bound stms

/-- Statements consume what one of them consumes, except for what they bind. -/
@[simp] theorem mem_consumedAll {n : Name} {stms : List Stm} :
    n ∈ consumedAll stms ↔ (∃ s ∈ stms, n ∈ s.consumed) ∧ n ∉ bound stms := by
  simp only [consumedAll, NameSet.mem_sdiff, NameSet.mem_unions, List.mem_map]
  constructor
  · rintro ⟨⟨_, ⟨s, hs, rfl⟩, hn⟩, h⟩
    exact ⟨⟨s, hs, hn⟩, h⟩
  · rintro ⟨⟨s, hs, hn⟩, h⟩
    exact ⟨⟨_, ⟨s, hs, rfl⟩, hn⟩, h⟩

end Stm

/-- A body consumes what its statements consume. -/
theorem Body.consumed_eq : ∀ b : Body, b.consumed = Stm.consumedAll b.stms
  | .yield _ => by
    refine NameSet.ext fun n => ?_
    simp [Body.consumed, Body.stms]
  | .bind pattern exp rest => by
    refine NameSet.ext fun n => ?_
    have ih := Body.consumed_eq rest
    simp only [Body.consumed, Body.stms, ih, NameSet.mem_sdiff, NameSet.mem_union,
      Stm.mem_consumedAll, Stm.mem_bound, NameSet.mem_ofList, Pattern.mem_names, List.mem_cons,
      exists_eq_or_imp, Stm.consumed]
    grind

end MapNest
