import MapNest.Analysis.Bound
import MapNest.Analysis.Consumed
import MapNest.Analysis.Free
import MapNest.Attempt
import MapNest.Builder
import MapNest.Distribute
import MapNest.Failure
import MapNest.Float.Format
import MapNest.Float.Shortest
import MapNest.Freshen
import MapNest.Kernel.Flatten
import MapNest.Kernel.Reduce
import MapNest.Loop.Basic
import MapNest.Loop.Interchange
import MapNest.Name.Basic
import MapNest.Name.Set
import MapNest.Name.Supply
import MapNest.Nest.Build
import MapNest.Nest.Level
import MapNest.Nest.Selection
import MapNest.Nest.Target
import MapNest.Proofs.Aligned
import MapNest.Proofs.Analysis.Consumed
import MapNest.Proofs.Analysis.Free
import MapNest.Proofs.Analysis.Lexical
import MapNest.Proofs.Analysis.Mentions
import MapNest.Proofs.Analysis.Overwrites
import MapNest.Proofs.Analysis.Parts
import MapNest.Proofs.Attempt
import MapNest.Proofs.Complete
import MapNest.Proofs.Distinct
import MapNest.Proofs.Distribute
import MapNest.Proofs.Ends
import MapNest.Proofs.Freshen.Alpha
import MapNest.Proofs.Kept
import MapNest.Proofs.Kernel.Distinct
import MapNest.Proofs.Kernel.Enter
import MapNest.Proofs.Kernel.Guards
import MapNest.Proofs.Kernel.Reduce
import MapNest.Proofs.Kernel.Renamed
import MapNest.Proofs.Kernel.Width
import MapNest.Proofs.Loop.Consumed
import MapNest.Proofs.Loop.Crosses
import MapNest.Proofs.Loop.Distinct
import MapNest.Proofs.Loop.Free
import MapNest.Proofs.Loop.Hoist
import MapNest.Proofs.Loop.Interchange
import MapNest.Proofs.Loop.Wiring
import MapNest.Proofs.Moves
import MapNest.Proofs.Nest.Accounts
import MapNest.Proofs.Nest.Arranges
import MapNest.Proofs.Nest.Builds
import MapNest.Proofs.Nest.Close
import MapNest.Proofs.Nest.Consistent
import MapNest.Proofs.Nest.Dangling
import MapNest.Proofs.Nest.Distinct
import MapNest.Proofs.Nest.Division
import MapNest.Proofs.Nest.Ends
import MapNest.Proofs.Nest.Origin
import MapNest.Proofs.Nest.Reads
import MapNest.Proofs.Nest.Scoped
import MapNest.Proofs.Nest.Typed
import MapNest.Proofs.Scope
import MapNest.Proofs.Semantics.Layout
import MapNest.Proofs.Semantics.Tensor
import MapNest.Proofs.Typed
import MapNest.Proofs.Unique
import MapNest.Scope
import MapNest.Session
import MapNest.Settings.Basic
import MapNest.Settings.Reader
import MapNest.Stack
import MapNest.Syntax.Exp
import MapNest.Syntax.Numeric
import MapNest.Syntax.Operand
import MapNest.Syntax.Subst
import MapNest.Syntax.Text
import MapNest.Syntax.Ty
import MapNest.Proofs.Session
