import MapNest.Attempt
import MapNest.Nest.Level
import MapNest.Nest.Selection

/-!
# `MapNest.Nest.Build`: the kernel nest around a selection

`Selection.kernelNest` turns the maps around some statements into the levels of the kernel that will
compute them, and the targets of those maps into what the program left behind still has to produce.

The levels are built from the innermost outward. At each level:

* The level's outputs are divided. Those that return an array of the kernel's level just inside are
  taken over by the kernel, in their order; the others stay. An array of the inner level that no
  output returns gets a new array here, after those taken over. All levels built so far list their
  arrays in the order that arises (`Division`).
* Parameters that nothing further inside reads are dropped.
* What is read further inside and is bound by the body of this level's map has to be handed in from
  outside (`Capture`). The map left behind returns it into an array, new unless an output set aside
  carries it, and the kernel reads the rows of that array. The arrays returned by the map just
  inside are bound by this body too.
* A parameter whose values are not consumed further inside is read only from now on.
* If the type of a parameter or of an output mentions a name that is bound in the nest, the arrays
  would be irregular, and the selection is refused.

What the level reads and consumes is then the demand on the next one out (`Demand`).
-/

set_option autoImplicit false

namespace MapNest

/-- What the levels built so far ask of the levels around them. -/
structure Demand where
  /-- The names they read. -/
  free : NameSet
  /-- The names they consume. -/
  consumed : NameSet

/-- What remains to be asked outside a level. -/
def Demand.around (d : Demand) (l : Level) : Demand where
  free := l.free ∪ (d.free \ l.bound)
  consumed := (d.consumed \ l.bound) ∪ l.consumed

/-- Outside a level, what it reads is asked for, and what it does not bind of the demand inside. -/
theorem Demand.mem_around_free {n : Name} {d : Demand} {l : Level} :
    n ∈ (d.around l).free ↔ n ∈ l.free ∨ (n ∈ d.free ∧ n ∉ l.bound) := by
  simp [Demand.around]

/-- The levels built so far, and the targets of the maps left behind. -/
structure Built where
  /-- The levels of the kernel. -/
  nest : KernelNest
  /-- The targets of the maps left behind. -/
  targets : Targets
  /-- What the levels ask of the next one out. -/
  demand : Demand

/-! ### Dividing the outputs of a level -/

/-- An output of a level that takes over an array of the level inside. -/
structure Taken where
  /-- The position of the array among those of the level inside. -/
  position : Nat
  /-- The array of this level whose rows it gives. -/
  binder : Binder
deriving DecidableEq

/-- The outputs of a level, divided. -/
structure Division where
  /-- What the kernel takes over. -/
  taken : List Taken := []
  /-- What the map left behind still returns. -/
  kept : Target := []
deriving DecidableEq

namespace Division

/-- The positions taken so far. -/
def positions (d : Division) : List Nat := d.taken.map (·.position)

/-- Divides one more output. It is taken if it returns an array of the level inside that no earlier
output has taken. -/
def add (inner : Pattern) (d : Division) (o : Output) : Division :=
  match o.value.name?.bind (Pattern.position? inner) with
  | some k =>
    if k ∈ d.positions then { d with kept := d.kept ++ [o] }
    else { d with taken := d.taken ++ [⟨k, o.binder⟩] }
  | none => { d with kept := d.kept ++ [o] }

/-- Divides a target by the arrays of the level inside. -/
def ofTarget (inner : Pattern) (t : Target) : Division := t.foldl (add inner) {}

/-- The arrays of the level inside that no output takes, with their positions. -/
def untaken (inner : Pattern) (d : Division) : List (Binder × Nat) :=
  inner.zipIdx.filter fun x => x.2 ∉ d.positions

end Division

/-- Draws an array for one that no output takes. -/
def newOutput (width : Operand) (x : Binder × Nat) : AttemptM Taken := do
  return ⟨x.2, ← AttemptM.freshBinder x.1.name "_r" (x.1.ty.arrayOf width)⟩

/-- The binders at the given positions, in that order. -/
def Pattern.permute (order : List Nat) (p : Pattern) : Pattern := order.filterMap fun k => p[k]?

/-- Puts the arrays of a level into another order. -/
def Level.permute (order : List Nat) (l : Level) : Level :=
  { l with pattern := Pattern.permute order l.pattern }

/-! ### Closing a level -/

/-- A value handed in from outside a level. -/
structure Capture where
  /-- The parameter that holds it. -/
  input : RowInput
  /-- What the map left behind returns for it, beyond what it returned before. -/
  added : Target

/-- Hands in a value: through the array that carries it already, or else through a new one. -/
def capture (width : Operand) (carrier? : Name → Option Binder) (n : Name) : AttemptM Capture := do
  let ty ← AttemptM.typeOf n
  match carrier? n with
  | some carrier => return ⟨⟨⟨n, ty⟩, carrier.name⟩, []⟩
  | none =>
    let array ← AttemptM.freshBinder n "_r" (ty.arrayOf width)
    return ⟨⟨⟨n, ty⟩, array.name⟩, [⟨array, .var n⟩]⟩

/-- A parameter is read only unless its values are consumed. -/
def RowInput.demote (consumed : NameSet) (i : RowInput) : RowInput :=
  if i.param.name ∈ consumed then i else { i with param := i.param.readOnly }

/-- Demoting a parameter leaves its name. -/
@[simp] theorem RowInput.name_demote {consumed : NameSet} {i : RowInput} :
    (i.demote consumed).param.name = i.param.name := by
  unfold demote
  split <;> rfl

/-- Demoting a parameter leaves the array that it is a row of. -/
@[simp] theorem RowInput.array_demote {consumed : NameSet} {i : RowInput} :
    (i.demote consumed).array = i.array := by
  unfold demote
  split <;> rfl

/-- Demoting a parameter leaves the sizes in its type. -/
@[simp] theorem RowInput.dims_demote {consumed : NameSet} {i : RowInput} :
    (i.demote consumed).param.ty.dims = i.param.ty.dims := by
  unfold demote
  split
  · rfl
  · exact Ty.dims_withUnique

/-- A level on its way into the kernel. -/
structure Frame where
  /-- Its place in the nest, counted from the outermost level. -/
  position : Nat
  /-- The map it comes from. -/
  enclosing : Enclosing
  /-- The arrays that the kernel binds at this level. -/
  pattern : Pattern
  /-- What the map left behind still returns. -/
  target : Target
  /-- The arrays that the map just inside still returns. -/
  below : NameSet
  /-- The arrays that carry values across this level. -/
  carrier? : Name → Option Binder

namespace Frame

/-- The names that are read inside the level and bound by the body of its map. -/
def required (f : Frame) (l : Level) (demand : Demand) : List Name :=
  ((demand.around l).free.filter fun n => n ∈ f.enclosing.letBound ∨ n ∈ f.below).toList

/-- Closes a level: drops what is not read, captures what has to be handed in, and refuses the level
if it would be irregular. The result is the level and the target of the map left behind. -/
def close (f : Frame) (bound : NameSet) (demand : Demand) : AttemptM (Level × Target) := do
  let level := f.enclosing.level.restrict demand.free
  let captures ← (f.required level demand).mapM (capture level.width f.carrier?)
  let inputs := (level.inputs ++ captures.map (·.input)).map (RowInput.demote demand.consumed)
  let level := { level with inputs, pattern := f.pattern }
  match (level.params ++ f.pattern).find? fun b => b.ty.dimNames.any (· ∈ bound) with
  | some b => AttemptM.refuse (.irregular f.position b)
  | none => return (level, f.target ++ captures.flatMap (·.added))

end Frame

namespace Selection

variable (s : Selection) (bound : NameSet)

/-- The innermost level. The kernel takes over all that the selection computes, and the outputs set
aside stay. -/
def innermost (position : Nat) (e : Enclosing) : AttemptM Built := do
  let frame : Frame :=
    { position, enclosing := e, pattern := Target.pattern s.targets.inner, target := []
      below := ∅, carrier? := s.carrier? }
  let demand : Demand := ⟨s.free ∩ bound, s.consumed ∩ bound⟩
  let (level, target) ← frame.close bound demand
  return ⟨.single level, .single (s.restore target), demand.around level⟩

end Selection

/-- Puts a level around those built so far. -/
def Built.enclose (bound : NameSet) (position : Nat) (e : Enclosing) (t : Target) (built : Built) :
    AttemptM Built := do
  let inner := built.nest.outermost.pattern
  let division := Division.ofTarget inner t
  let new ← (division.untaken inner).mapM (newOutput e.level.width)
  let outputs := division.taken ++ new
  let frame : Frame :=
    { position, enclosing := e, pattern := outputs.map (·.binder), target := division.kept
      below := .ofList (Pattern.names (Target.pattern built.targets.outermost))
      carrier? := fun _ => none }
  let (level, target) ← frame.close bound built.demand
  let nest := built.nest.map (Level.permute (outputs.map (·.position)))
  return ⟨nest.pushOuter level, built.targets.pushOuter target, built.demand.around level⟩

/-- Puts levels around those built so far, the last of the list first. -/
def Built.encloseAll (bound : NameSet) (built : Built) :
    Nat → List (Enclosing × Target) → AttemptM Built
  | _, [] => return built
  | position, (e, t) :: rest => do
    let inner ← built.encloseAll bound (position + 1) rest
    inner.enclose bound position e t

/-- The kernel nest that computes a selection, and the targets of the maps left behind. There must
be one target for each level. -/
def Selection.kernelNest (s : Selection) (nesting : Nesting) : AttemptM (Targets × KernelNest) := do
  unless nesting.depth = s.targets.depth do
    AttemptM.fail (.depthMismatch nesting.depth s.targets.depth)
  let bound := nesting.bound
  let inner ← s.innermost bound nesting.outer.length nesting.inner
  let built ← inner.encloseAll bound 0 (nesting.outer.zip s.targets.outer)
  return (built.targets, built.nest)

end MapNest
