import OwnershipFlow.Config
import OwnershipFlow.Instrumenter.Placement

/-!
# Diagnostics

What is reported for an error: the message, a code that names the kind of error, advice where there
is some, and labelled places in the source.
-/

set_option autoImplicit false
set_option relaxedAutoImplicit false

namespace OwnershipFlow

/-- A report about an error. -/
structure Diagnostic where
  message : String
  code : String
  help? : Option String
  /-- Places in the source, with a text where there is something to say about them. -/
  labels : List (Option String × Span)
  deriving DecidableEq, Repr

/-- An ill-formed variable is reported at its declaration. -/
def TypeError.diagnostic (e : TypeError) : Diagnostic where
  message := "type error: " ++ e.message
  code := "strata::typecheck"
  help? := none
  labels := [(none, e.declaration.span)]

/-- An irreducible flow graph is reported at its implementation. -/
def IrreducibleFlow.diagnostic (e : IrreducibleFlow) : Diagnostic where
  message := e.message
  code := "strata::irreducible"
  help? := some
    "loop headers must be the single entry of their loop; restructure the control flow"
  labels := [(some "unsupported control flow", e.span)]

/-- The code of all errors in configurations. -/
def ConfigError.code : String := "strata::config"

/-- A name that cannot be resolved has no place in the source. -/
def ConfigError.diagnostic (e : ConfigError) : Diagnostic where
  message := "instrumentation config error: " ++ e.message
  code := ConfigError.code
  help? := none
  labels := []

end OwnershipFlow
