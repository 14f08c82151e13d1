import MapNest.Distribute

/-!
# `MapNest.Session`: walking through a nest

A walk through a program enters and leaves maps, and on its way moves statements out of the maps
around them. A `Session` is what the walk holds: the names and types in use, the settings, and for
each map it is in what the map binds and what it still has to produce. The two stacks have one
depth whenever statements are moved.

Each step that moves statements draws names from the session's supply, whether it succeeds or not.
If it succeeds, what the nest still has to produce becomes the session's target stack. A nest that
was only planned is kept for later steps, and the targets stay as they are.
-/

set_option autoImplicit false

namespace MapNest

/-- What a walk through a program holds. -/
structure Session where
  /-- Where fresh names come from. -/
  supply : Supply
  /-- The types of the names in scope. -/
  scope : Scope
  /-- How statements are moved. -/
  settings : Settings
  /-- The maps around the statements at hand. -/
  nesting : Nesting
  /-- What these maps still have to produce. -/
  targets : Targets
  /-- The kernel nest planned last. -/
  nest? : Option KernelNest := none
  /-- What happened so far, oldest first. -/
  log : List Event := []

namespace Session

/-- Gives names their types. -/
def declare (s : Session) (l : List Binder) : Session := { s with scope := s.scope.insertAll l }

/-- Gives the arrays of all targets their types, the outermost level first. -/
def declareTargets (s : Session) : Session :=
  s.declare (s.targets.toList.flatMap Target.pattern)

/-- Enters a map, whose target is given separately. -/
def enter (s : Session) (e : Enclosing) : Session := { s with nesting := s.nesting.pushInner e }

/-- Takes up the target of a map that was entered. -/
def aim (s : Session) (t : Target) : Session := { s with targets := s.targets.pushInner t }

/-- Gives up the innermost target, unless it is the only one. -/
def dropTarget (s : Session) : Option Target × Session :=
  match s.targets.popInner? with
  | some (t, targets) => (some t, { s with targets })
  | none => (none, s)

/-- Notes names as bound by the innermost map's body. -/
def letBind (s : Session) (names : List Name) : Session :=
  { s with nesting := s.nesting.mapInner (Enclosing.letBind names) }

/-- Makes an attempt with the session's names and types. -/
def attempt {α : Type} (s : Session) (act : AttemptM α) : Except Stop α × Session :=
  match act { supply := s.supply, scope := s.scope } with
  | .ok a st => (.ok a, { s with supply := st.supply, log := s.log ++ st.log })
  | .error e st => (.error e, { s with supply := st.supply, log := s.log ++ st.log })

/-- Makes an attempt and keeps something of its result. -/
def attemptWith {α : Type} (s : Session) (act : AttemptM α) (keep : α → Session → Session) :
    Except Stop α × Session :=
  match s.attempt act with
  | (.ok a, s) => (.ok a, keep a s)
  | (.error e, s) => (.error e, s)

/-- Moves statements into a kernel. -/
def distribute (s : Session) (stms : List Stm) : Except Stop Moved × Session :=
  s.attemptWith (MapNest.distribute s.settings s.nesting s.targets stms) fun m s =>
    { s with targets := m.targets }

/-- Moves a loop out of the maps. -/
def interchange (s : Session) (stm : Stm) : Except Stop Moved × Session :=
  s.attemptWith (MapNest.interchange s.settings s.nesting s.targets stm) fun m s =>
    { s with targets := m.targets }

/-- Plans a kernel nest for statements. -/
def plan (s : Session) (stms : List Stm) : Except Stop Planned × Session :=
  s.attemptWith (MapNest.plan s.nesting s.targets stms) fun p s => { s with nest? := some p.nest }

/-- Makes a kernel of the nest planned last, if there is one. -/
def flatten (s : Session) (body : Body) : Option (Except Stop FlatKernel × Session) :=
  s.nest?.map fun nest => s.attempt (nest.flatten body : FreshM FlatKernel)

/-- Moves a loop out of the nest planned last, if there is one. -/
def interchangeNest (s : Session) (l : LoopStm) : Option (Except Stop (List Stm) × Session) :=
  s.nest?.map fun nest => s.attempt (l.interchangeAll s.settings.copyConsumed nest)

end Session

end MapNest
