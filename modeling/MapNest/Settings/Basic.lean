/-!
# `MapNest.Settings.Basic`: how statements are moved

Four switches control what becomes of statements that are moved out of a nest.
-/

set_option autoImplicit false

namespace MapNest

/-- The switches. -/
structure Settings where
  /-- Kernels that only rearrange data become a single operation. -/
  reduceKernels : Bool := true
  /-- What a new kernel binds inside gets fresh names. -/
  freshenKernels : Bool := true
  /-- A loop moved out of a map copies the arrays whose rows its body may overwrite. Without the
  copies a program may overwrite data that is still in use. -/
  copyConsumed : Bool := true
  /-- Every kernel is noted with the statements it comes from and the targets before and after. -/
  noteTargets : Bool := false
deriving DecidableEq

/-- One of the switches. -/
inductive Switch where
  /-- `Settings.reduceKernels`. -/
  | reduceKernels
  /-- `Settings.freshenKernels`. -/
  | freshenKernels
  /-- `Settings.copyConsumed`. -/
  | copyConsumed
  /-- `Settings.noteTargets`. -/
  | noteTargets
deriving DecidableEq

namespace Switch

/-- All switches. -/
def all : List Switch := [reduceKernels, freshenKernels, copyConsumed, noteTargets]

/-- The name of a switch in settings files. -/
def key : Switch → String
  | reduceKernels => "optimize_kernels"
  | freshenKernels => "rename_kernels"
  | copyConsumed => "copy_consumed_inputs"
  | noteTargets => "trace_distribution"

/-- The switch of a name. -/
def ofKey? (key : String) : Option Switch := all.find? (·.key = key)

end Switch

namespace Settings

/-- The position of a switch. -/
def get (s : Settings) : Switch → Bool
  | .reduceKernels => s.reduceKernels
  | .freshenKernels => s.freshenKernels
  | .copyConsumed => s.copyConsumed
  | .noteTargets => s.noteTargets

/-- Sets a switch. -/
def set (s : Settings) (w : Switch) (on : Bool) : Settings :=
  match w with
  | .reduceKernels => { s with reduceKernels := on }
  | .freshenKernels => { s with freshenKernels := on }
  | .copyConsumed => { s with copyConsumed := on }
  | .noteTargets => { s with noteTargets := on }

/-- A switch that is set is as it was set. -/
@[simp] theorem get_set_self {s : Settings} {w : Switch} {on : Bool} : (s.set w on).get w = on := by
  cases w <;> rfl

/-- Setting a switch leaves the others. -/
theorem get_set_of_ne {s : Settings} {v w : Switch} {on : Bool} (h : v ≠ w) :
    (s.set w on).get v = s.get v := by
  cases v <;> cases w <;> simp_all [get, set]

end Settings

end MapNest
