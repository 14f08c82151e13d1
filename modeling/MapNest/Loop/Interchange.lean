import MapNest.Attempt
import MapNest.Loop.Basic
import MapNest.Nest.Level

/-!
# `MapNest.Loop.Interchange`: moving a loop out of a nest

A sequential loop inside a map can be moved outside if it runs equally often in each iteration of
the map. Each iteration of the loop then runs the map once:

    map i < w (x <- xs):               loop (as = replicate(w, init)) for j < n:
      loop (a = init) for j < n:  =>     map i < w (x <- xs, a <- as):
        body                               body

A carried value becomes an array with one row for each iteration of the map. If it starts with a
parameter of the map, the parameter's array is that array's start already; otherwise the initial
value is replicated (`Level.widen`). The map reads the arrays that the loop's body needs. One whose
rows the body may overwrite is copied before, in each iteration of the loop (`Level.hand`).

`LoopStm.interchange` moves a loop past one level, and `LoopStm.interchangeAll` past all levels of a
nest, the innermost first.
-/

set_option autoImplicit false

namespace MapNest

/-- A carried value as it is inside and outside a level. -/
structure Widened where
  /-- The carried value of the loop inside. -/
  inside : Merge
  /-- The carried value of the loop outside. -/
  outside : Merge
  /-- The replication of the initial value, if there has to be one. -/
  replicates : List Stm

/-- A parameter of the map, and the copy of its array, if there has to be one. -/
structure Handed where
  /-- The parameter with the array it is read from. -/
  input : RowInput
  /-- The copy. -/
  copies : List Stm

/-- What a loop becomes outside a level. -/
structure Interchanged where
  /-- The replications of initial values. -/
  prelude : List Stm
  /-- The loop. -/
  loop : LoopStm

namespace Level

/-- Gives a carried value a row for each iteration of a level. -/
def widen (l : Level) (m : Merge) : AttemptM Widened := do
  let ty := m.param.ty.arrayOf l.width
  let array ← AttemptM.freshBinder m.param.name "_expanded" ty
  match m.init.name?.bind l.input? with
  | some i => return ⟨m, ⟨array, .var i.array⟩, []⟩
  | none =>
    let start ← AttemptM.freshBinder m.param.name "_expanded_init" (ty.withUnique true)
    return ⟨m, ⟨array, .var start.name⟩, [Stm.replicate start l.width m.init]⟩

/-- Hands an array of a level to the map. If its rows may be overwritten and copies are asked for,
the map gets a copy. -/
def hand (l : Level) (copyConsumed : Bool) (i : RowInput) : AttemptM Handed := do
  if i.param.ty.isUnique && copyConsumed then
    let copy ← AttemptM.freshBinder i.array "_copy" ((i.param.ty.arrayOf l.width).withUnique true)
    return ⟨⟨i.param, copy.name⟩, [Stm.copy copy i.array]⟩
  else return ⟨i, []⟩

/-- Refuses a loop that need not run equally often in each iteration of a level. -/
def accept (l : Level) : LoopForm → AttemptM Unit
  | .whileTrue cond => AttemptM.refuse (.conditionLoop cond)
  | .forBelow _ bound =>
    if ∃ n ∈ Operand.names [bound], n ∈ l.bound then AttemptM.refuse (.varyingBound bound)
    else return

end Level

/-- The array that a returned value is part of: that of the first carried value of its name. -/
def Widened.returned (ws : List Widened) (n : Name) : AttemptM Name :=
  match ws.find? (·.inside.param.name = n) with
  | some w => return w.outside.param.name
  | none => AttemptM.fail (.unboundName n)

namespace LoopStm

/-- Moves a loop out of one level. It then binds the arrays of the level. -/
def interchange (copyConsumed : Bool) (level : Level) (l : LoopStm) : AttemptM Interchanged := do
  level.accept l.loop.form
  let reads := l.loop.reads
  let widened ← l.loop.merge.mapM level.widen
  let handed ← (level.inputs.filter (·.param.name ∈ reads)).mapM (level.hand copyConsumed)
  let results ← widened.mapM fun w => do
    let name ← Supply.freshSuffixed w.outside.param.name "_res"
    return (⟨name, w.outside.param.ty⟩ : Binder)
  let inputs := handed.map (·.input) ++
    widened.map fun w => ⟨w.inside.param, w.outside.param.name⟩
  let function : Lambda :=
    { index := level.index
      params := inputs.map (·.param)
      body := l.loop.body
      returns := widened.map (·.inside.param.ty) }
  let map : Stm := ⟨results, .map level.checks level.width function (inputs.map (·.array))⟩
  let ret ← l.loop.ret.mapM (Widened.returned widened)
  unless ret.length = level.pattern.length do
    AttemptM.fail (.arityMismatch .interchangedLoop level.pattern.length ret.length)
  let body := Body.ofStms (handed.flatMap (·.copies) ++ [map]) (Pattern.operands results)
  return ⟨widened.flatMap (·.replicates),
    ⟨level.pattern, ⟨ret, widened.map (·.outside), l.loop.form, body⟩⟩⟩

/-- Moves a loop out of the levels of a list, the last one first, and notes each success. The
levels are numbered from a given position on. -/
def interchangeLevels (copyConsumed : Bool) (l : LoopStm) :
    Nat → List Level → AttemptM Interchanged
  | _, [] => return ⟨[], l⟩
  | position, level :: rest => do
    let inner ← l.interchangeLevels copyConsumed (position + 1) rest
    let outer ← inner.loop.interchange copyConsumed level
    AttemptM.note (.interchanged position level.width outer.prelude.length)
    return ⟨inner.prelude ++ outer.prelude, outer.loop⟩

/-- Moves a loop out of a nest. The result is the replications of initial values, and then the loop
outside the nest. -/
def interchangeAll (copyConsumed : Bool) (nest : KernelNest) (l : LoopStm) :
    AttemptM (List Stm) := do
  let all ← l.interchangeLevels copyConsumed 0 nest.toList
  return all.prelude ++ [all.loop.toStm]

end LoopStm

end MapNest
