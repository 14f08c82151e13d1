import MapNest.Freshen
import MapNest.Kernel.Flatten
import MapNest.Kernel.Reduce
import MapNest.Loop.Interchange
import MapNest.Nest.Build
import MapNest.Settings.Basic

/-!
# `MapNest.Distribute`: moving statements out of a nest

Whoever walks through a program and comes to some statements in the innermost body of a nest may ask
for one of two things. `distribute` moves them into a kernel of their own. `interchange` moves a
loop out of the nest, which leaves the maps, and so the parallelism, inside it. Either way the
answer holds the statements that now stand in front of the nest, and the targets that the nest has
to produce from now on.
-/

set_option autoImplicit false

namespace MapNest

/-- The outcome of moving statements out of a nest. -/
structure Moved where
  /-- What the nest still has to produce. -/
  targets : Targets
  /-- The statements that now stand in front of it. -/
  stms : List Stm
deriving DecidableEq

/-- The kernel nest for some statements, not yet made into a kernel. -/
structure Planned where
  /-- The values that the statements contribute to the innermost level, in the order of its
  arrays. -/
  results : List Operand
  /-- What the nest still has to produce. -/
  targets : Targets
  /-- The levels of the kernel. -/
  nest : KernelNest
deriving DecidableEq

/-- The values that go into the arrays of the innermost level, in their order. -/
def Selection.results (s : Selection) (nest : KernelNest) : List Operand :=
  nest.inner.pattern.filterMap fun b => Target.value? s.targets.inner b.name

/-- The kernel nest that computes some statements. -/
def plan (nesting : Nesting) (targets : Targets) (stms : List Stm) : AttemptM Planned := do
  let selection := Selection.ofStms targets stms
  let (targets, nest) ← selection.kernelNest nesting
  return ⟨selection.results nest, targets, nest⟩

/-- Finishes a kernel as the settings ask. -/
def finish (settings : Settings) (kernel : Stm) : AttemptM Stm := do
  let kernel ← if settings.freshenKernels then (kernel.freshen : FreshM Stm) else pure kernel
  if settings.reduceKernels then kernel.reduce else return kernel

/-- Moves statements out of a nest into a kernel. No statements are moved by doing nothing. -/
def distribute (settings : Settings) (nesting : Nesting) (targets : Targets) (stms : List Stm) :
    AttemptM Moved := do
  if stms.isEmpty then return ⟨targets, []⟩
  let planned ← plan nesting targets stms
  let flat ← planned.nest.flatten (.ofStms stms planned.results)
  let kernel ← finish settings flat.stm
  AttemptM.note <|
    if settings.noteTargets then .distributedAs stms kernel targets planned.targets
    else .distributed stms.length planned.nest.depth
  return ⟨planned.targets, flat.prelude ++ [kernel]⟩

/-- Moves a loop out of a nest. It has to be a loop, and what it contributes to the innermost level
have to be names that it binds. -/
def interchange (settings : Settings) (nesting : Nesting) (targets : Targets) (stm : Stm) :
    AttemptM Moved := do
  let some loop := LoopStm.ofStm? stm | AttemptM.refuse .noLoop
  let planned ← plan nesting targets [stm]
  let some loop := loop.select? planned.results | AttemptM.refuse .unaligned
  return ⟨planned.targets, ← loop.interchangeAll settings.copyConsumed planned.nest⟩

end MapNest
