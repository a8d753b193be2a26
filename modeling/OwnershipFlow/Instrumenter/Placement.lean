import OwnershipFlow.FlowGraph.Loops
import OwnershipFlow.Implementation.Pruning
import OwnershipFlow.Instrumenter.Disjointness

/-!
# Placement of assumptions

An implementation is instrumented by assuming disjointness, globals included, right after every
parallel call and at the start of every loop header.

Parallel calls come first, in all blocks. Then unreachable blocks are removed and predecessors are
recorded. Loop headers come last, in ascending order, and only if the flow graph is reducible: if it
is not, the pass ends with an error and the implementation keeps what was done up to then.
Identifiers are taken in the order in which assumptions are placed.
-/

set_option autoImplicit false
set_option relaxedAutoImplicit false

namespace OwnershipFlow

/-- An implementation whose flow graph has a loop that can be entered past its header. -/
structure IrreducibleFlow where
  implementation : String
  span : Span
  deriving DecidableEq, Repr

namespace IrreducibleFlow

/-- What is wrong with the implementation. -/
def message (e : IrreducibleFlow) : String :=
  s!"irreducible flow graph in implementation `{e.implementation}`"

end IrreducibleFlow

/-- The state in which an instrumentation pass leaves an implementation and the supply, and the
error with which it ended, if any. -/
structure Instrumented where
  implementation : Implementation
  supply : Supply
  error? : Option IrreducibleFlow
  deriving DecidableEq

namespace Instrumenter

/-! ### Parallel calls -/

/-- The assumptions that follow a command: those at the command if it is a parallel call, and
otherwise none. -/
def assumeAfter (t : Instrumenter) (c : Command) (supply : Supply) : List Command × Supply :=
  if c.isParCall then t.assumeAt (.command c.id) true c.span supply else ([], supply)

/-- Places assumptions after the parallel calls among commands. -/
def afterCalls (t : Instrumenter) : List Command → Supply → List Command × Supply
  | [], supply => ([], supply)
  | c :: rest, supply =>
    let (assumed, supply) := t.assumeAfter c supply
    let (rest, supply) := afterCalls t rest supply
    (c :: (assumed ++ rest), supply)

/-- Places assumptions after the parallel calls of blocks. -/
def afterCallsOfBlocks (t : Instrumenter) : List Block → Supply → List Block × Supply
  | [], supply => ([], supply)
  | b :: rest, supply =>
    let (commands, supply) := t.afterCalls b.commands supply
    let (rest, supply) := afterCallsOfBlocks t rest supply
    ({ b with commands } :: rest, supply)

/-- The implementation with assumptions after its parallel calls, without its unreachable blocks,
and with predecessors recorded. -/
def withCalls (t : Instrumenter) (imp : Implementation) (supply : Supply) :
    Implementation × Supply :=
  let (blocks, supply) := t.afterCallsOfBlocks imp.blocks supply
  ({ imp with blocks }.prune.recordPredecessors, supply)

/-! ### Loop headers -/

/-- Places assumptions at the start of one block. -/
def atHeader (t : Instrumenter) (state : Implementation × Supply) (header : BlockId) :
    Implementation × Supply :=
  match state.1.block? header with
  | none => state
  | some block =>
    let (assumed, supply) := t.assumeAt (.block header) true block.span state.2
    (state.1.modifyBlock header fun b ↦ { b with commands := assumed ++ b.commands }, supply)

/-- Places assumptions at the start of blocks, one after the other. -/
def atHeaders (t : Instrumenter) (headers : List BlockId) (state : Implementation × Supply) :
    Implementation × Supply :=
  headers.foldl t.atHeader state

/-! ### The pass -/

/-- Assumes disjointness after every parallel call and at every loop header. -/
def instrument (t : Instrumenter) (imp : Implementation) (supply : Supply) : Instrumented :=
  let (imp, supply) := t.withCalls imp supply
  match FlowGraph.of? imp with
  | none => ⟨imp, supply, none⟩
  | some g =>
    if g.loops.reducible then
      let (imp, supply) := t.atHeaders g.loops.headers (imp, supply)
      ⟨imp, supply, none⟩
    else ⟨imp, supply, some ⟨imp.name, imp.span⟩⟩

end Instrumenter

/-- Instruments an implementation of the program in place. -/
def Program.instrument? (p : Program) (t : Instrumenter) (id : ImplId) :
    Option (Instrumented × Program) :=
  p.implementations[id]?.map fun imp ↦
    let result := t.instrument imp p.supply
    (result, { p with
      implementations := p.implementations.insert id result.implementation
      supply := result.supply })

end OwnershipFlow
