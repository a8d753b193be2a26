import OwnershipFlow.Expr
import OwnershipFlow.Span

/-!
# Commands

A command is an action together with its identifier and its place in the source. A parallel call
runs all its arms at once.
-/

set_option autoImplicit false
set_option relaxedAutoImplicit false

namespace OwnershipFlow

/-- An invocation of a procedure: the arguments passed to its in-parameters and the variables that
receive its out-parameters. -/
structure Call where
  callee : ProcId
  args : List Expr
  outs : List VarId
  deriving DecidableEq, Repr

/-- What a command does. -/
inductive Action
  | assume (condition : Expr)
  | assert (condition : Expr)
  | assign (targets : List VarId) (values : List Expr)
  | havoc (targets : List VarId)
  | call (call : Call)
  | parCall (arms : List Call)
  deriving DecidableEq, Repr

namespace Action

/-- Whether the action is a parallel call. -/
def isParCall : Action → Bool
  | parCall _ => true
  | _ => false

end Action

/-- A command of a block. -/
structure Command where
  id : CommandId
  span : Span
  action : Action
  deriving DecidableEq, Repr

namespace Command

/-- Whether the command is a parallel call. -/
def isParCall (c : Command) : Bool :=
  c.action.isParCall

end Command

end OwnershipFlow
