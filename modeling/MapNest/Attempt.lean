import MapNest.Name.Supply
import MapNest.Nest.Target
import MapNest.Scope

/-!
# `MapNest.Attempt`: attempts to move statements out of a nest

An attempt draws fresh names, gives types to the names it introduces, and notes what happens
(`Event`). It ends in one of three ways: with a result; with a refusal, if the statements cannot be
moved and stay where they are (`Refusal`); or with a failure, if what it was given contradicts
itself (`Failure`). Names drawn, types given and events noted up to that point remain in each case.
-/

set_option autoImplicit false

namespace MapNest

/-- Why statements stay where they are. -/
inductive Refusal where
  /-- A parameter or an output of a level would be an array whose rows differ in shape. -/
  | irregular (level : Nat) (binder : Binder)
  /-- A loop has no bound, only a condition. -/
  | conditionLoop (cond : Name)
  /-- The bound of a loop differs between the iterations of a map. -/
  | varyingBound (bound : Operand)
  /-- The statement is no loop. -/
  | noLoop
  /-- The statement's outputs are not just names that the loop binds. -/
  | unaligned
deriving DecidableEq

/-- Why an attempt ends without a result. -/
inductive Stop where
  /-- The statements stay where they are. -/
  | refused (reason : Refusal)
  /-- The attempt was given something that contradicts itself. -/
  | failed (failure : Failure)
deriving DecidableEq

/-- How much detail a note belongs to. -/
inductive Severity where
  /-- Steps on the way. -/
  | trace
  /-- Results. -/
  | debug
deriving DecidableEq

/-- What is noted during an attempt. -/
inductive Event where
  /-- Statements stay where they are. -/
  | refused (reason : Refusal)
  /-- A kernel was nothing but one operation on a whole array. -/
  | reduced (op : Op)
  /-- Some statements were moved into a kernel over a nest of some depth. -/
  | distributed (count depth : Nat)
  /-- Some statements were moved into a kernel; the targets before and after. -/
  | distributedAs (stms : List Stm) (kernel : Stm) (before after : Targets)
  /-- A loop was moved past a level; the number of values that had to be replicated. -/
  | interchanged (level : Nat) (width : Operand) (replicates : Nat)
deriving DecidableEq

/-- The text of a refusal, if it is worth a note. -/
def Refusal.text? : Refusal → Option String
  | irregular level b =>
    some ("Not distributing at nesting level " ++ toString level ++ ": " ++ b.name.text ++
      " would have irregular type " ++ b.ty.text)
  | conditionLoop cond => some ("Cannot interchange while-loop on " ++ cond.text)
  | varyingBound bound =>
    some ("Loop bound " ++ bound.text ++ " is bound by the map; not interchanging")
  | noLoop => none
  | unaligned => none

/-- The note made of an event. -/
def Event.note? : Event → Option (Severity × String)
  | refused reason => reason.text?.map fun s => (.trace, s)
  | reduced op => some (.trace, "Replaced degenerate kernel by " ++ op.text)
  | distributed count depth =>
    some (.debug, "Distributed " ++ toString count ++ " bindings into a kernel nest of depth " ++
      toString depth)
  | distributedAs stms kernel before after =>
    some (.debug, "distributed\n" ++ "\n".intercalate (stms.map (Stm.text 1)) ++ "\nas\n" ++
      kernel.text 1 ++ "\ndue to targets\n" ++ Targets.text 1 before ++ "\nand new targets\n" ++
      Targets.text 1 after)
  | interchanged level width replicates =>
    some (.debug, "Interchanged loop with nesting level " ++ toString level ++ " of width " ++
      width.text ++ " (" ++ toString replicates ++ " replicates)")

/-- What an attempt works with. -/
structure Attempt where
  /-- Where fresh names come from. -/
  supply : Supply
  /-- The types of names, those of new names included. -/
  scope : Scope := ∅
  /-- What happened so far, oldest first. -/
  log : List Event := []

/-- The steps of an attempt. -/
abbrev AttemptM := EStateM Stop Attempt

namespace AttemptM

/-- Drawing a name moves the supply on and touches nothing else. -/
instance : MonadLift FreshM AttemptM where
  monadLift act st :=
    match act st.supply with
    | .ok a supply => .ok a { st with supply }
    | .error e supply => .error (.failed e) { st with supply }

/-- Notes an event. -/
def note (e : Event) : AttemptM Unit := modify fun st => { st with log := st.log ++ [e] }

/-- Ends the attempt with a failure. -/
def fail {α : Type} (e : Failure) : AttemptM α := throw (.failed e)

/-- Ends the attempt with a refusal. -/
def refuse {α : Type} (r : Refusal) : AttemptM α := do
  note (.refused r)
  throw (.refused r)

/-- Goes on with a result, or ends with its failure. -/
def ofExcept {α : Type} : Except Failure α → AttemptM α
  | .ok a => pure a
  | .error e => fail e

/-- Gives a name its type. -/
def declare (b : Binder) : AttemptM Unit := modify fun st => { st with scope := st.scope.insert b }

/-- The type of a name. -/
def typeOf (n : Name) : AttemptM Ty := do
  match (← get).scope.lookup? n with
  | some ty => return ty
  | none => fail (.unboundName n)

/-- Draws a name whose base is that of another with a suffix, and gives it a type. -/
def freshBinder (n : Name) (suffix : String) (ty : Ty) : AttemptM Binder := do
  let b : Binder := ⟨← Supply.freshSuffixed n suffix, ty⟩
  declare b
  return b

end AttemptM

end MapNest
