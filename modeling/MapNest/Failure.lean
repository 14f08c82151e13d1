import MapNest.Name.Basic

/-!
# `MapNest.Failure`: what makes an operation fail

A `Failure` reports a program or a pair of stacks that contradicts itself, or a number that leaves
its word. Statements that cannot be moved are no failure: those are refused
(`MapNest.Attempt`), and the caller goes on with the program as it was.
-/

set_option autoImplicit false

namespace MapNest

/-- Where the values given to a pattern are counted. -/
inductive Site where
  /-- The outputs of one level. -/
  | target
  /-- The results of the body that a nest computes. -/
  | kernelBody
  /-- The values that a loop returns once it stands outside a level. -/
  | interchangedLoop
deriving DecidableEq

/-- The words for a site in messages. -/
def Site.text : Site → String
  | target => "target"
  | kernelBody => "kernel body"
  | interchangedLoop => "interchanged loop"

/-- Why an operation failed. -/
inductive Failure where
  /-- There are not as many targets as nesting levels. -/
  | depthMismatch (nestings targets : Nat)
  /-- A name has no type, or is returned by a loop that does not carry it. -/
  | unboundName (name : Name)
  /-- A pattern does not have one element for each value. -/
  | arityMismatch (site : Site) (pattern result : Nat)
  /-- A number would leave its word: a tag the 32 bits of tags, a dimension the 64 bits of
  dimensions. -/
  | overflow
deriving DecidableEq

/-- The message for a failure. -/
def Failure.message : Failure → String
  | depthMismatch nestings targets =>
    "Nesting stack has depth " ++ toString nestings ++ " but target stack has depth " ++
      toString targets
  | unboundName name => "Name " ++ name.text ++ " is not bound in the type environment"
  | arityMismatch site pattern result =>
    site.text ++ ": pattern has " ++ toString pattern ++ " elements but result has " ++
      toString result ++ " values"
  | overflow => "attempt to add with overflow"

end MapNest
