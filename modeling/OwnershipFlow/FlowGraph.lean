import OwnershipFlow.FlowGraph.Dominators
import OwnershipFlow.FlowGraph.Edges
import OwnershipFlow.FlowGraph.Search

/-!
# Flow graphs

The flow graph of an implementation holds its edges and what a depth-first search from the entry
tells about them: the reverse postorder of the blocks that can be reached, the retreating edges of
the search, and the immediate dominators.

Retreating edges are listed in the order in which the search meets them, with repetitions where a
target is repeated.
-/

set_option autoImplicit false
set_option relaxedAutoImplicit false

namespace OwnershipFlow

/-- The edges of an implementation with the orders and the dominators of its reachable blocks. -/
structure FlowGraph extends Edges where
  /-- The reachable blocks in reverse postorder; the entry is first. -/
  rpo : List BlockId
  /-- The edges whose target lay on the search path. -/
  retreating : List (BlockId × BlockId)
  /-- The immediate dominator of every reachable block but the entry. -/
  idom : Std.ExtTreeMap BlockId BlockId

namespace FlowGraph

/-- The depth-first search of all that can be reached from the entry. -/
def search (e : Edges) : Search :=
  Search.explore e.next e.successors.keys e.entry (e.next e.entry)

/-- The flow graph over given edges. -/
def ofEdges (e : Edges) : FlowGraph :=
  let s := search e
  { e with
    rpo := s.finished
    retreating := s.retreating.reverse
    idom := Dominators.immediate s.finished e.prior e.entry }

/-- The flow graph of an implementation. There is none without blocks. -/
def of? (imp : Implementation) : Option FlowGraph :=
  (Edges.of? imp).map ofEdges

/-- The reachable blocks in postorder; the entry is last. -/
def postOrder (g : FlowGraph) : List BlockId :=
  g.rpo.reverse

/-- The strict dominators of a block, nearest first. -/
def strictDominators (g : FlowGraph) (b : BlockId) : List BlockId :=
  Dominators.chain g.idom g.idom.size b

/-- Whether `a` is `b` or one of its strict dominators. -/
def dominates (g : FlowGraph) (a b : BlockId) : Bool :=
  a = b || (g.strictDominators b).contains a

/-- Whether a block is the entry or has an immediate dominator, as the reachable blocks do. -/
def isReachable (g : FlowGraph) (b : BlockId) : Bool :=
  b = g.entry || b ∈ g.idom

end FlowGraph

end OwnershipFlow
