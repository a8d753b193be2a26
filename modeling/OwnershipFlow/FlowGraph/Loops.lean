import OwnershipFlow.FlowGraph

/-!
# Natural loops

A back edge is a retreating edge whose target dominates its source; the target is the header of a
loop. The body of a loop is the header together with the reachable blocks that lead to the source of
one of its back edges without passing through the header. A graph is reducible if all its retreating
edges are back edges. Otherwise some loop can be entered past its header.
-/

set_option autoImplicit false
set_option relaxedAutoImplicit false

namespace OwnershipFlow

/-- The loops of a flow graph by header, and whether they account for all retreating edges. -/
structure LoopForest where
  /-- The blocks of each loop, the header included. -/
  bodies : Std.ExtTreeMap BlockId BlockSet
  reducible : Bool
  deriving DecidableEq

namespace LoopForest

/-- The loops of a graph that has not been searched for loops: none are known, and nothing speaks
against reducibility. -/
def unsearched : LoopForest where
  bodies := ∅
  reducible := true

/-- The headers in ascending order. -/
def headers (l : LoopForest) : List BlockId :=
  l.bodies.keys

/-- The blocks of the loop with a given header, if there is one. -/
def body? (l : LoopForest) (header : BlockId) : Option BlockSet :=
  l.bodies[header]?

end LoopForest

namespace FlowGraph

/-- Whether the target of an edge dominates its source. -/
def isBackEdge (g : FlowGraph) (edge : BlockId × BlockId) : Bool :=
  g.dominates edge.2 edge.1

/-- The retreating edges whose target dominates their source. -/
def backEdges (g : FlowGraph) : List (BlockId × BlockId) :=
  g.retreating.filter g.isBackEdge

/-- The sources of the back edges that lead to a block. -/
def backSources (g : FlowGraph) (header : BlockId) : List BlockId :=
  (g.backEdges.filter (·.2 = header)).map (·.1)

/-- The reachable predecessors of a block. -/
def reachablePrior (g : FlowGraph) (b : BlockId) : List BlockId :=
  (g.prior b).filter g.isReachable

/-- The header together with what leads to a back edge of it without passing through it: a search
against the edges from the sources of the back edges, which never goes on from the header. -/
def naturalLoop (g : FlowGraph) (header : BlockId) : BlockSet :=
  (Search.explore g.reachablePrior (g.entry :: g.idom.keys) header (g.backSources header)).visited

/-- The loops of a graph. -/
def loops (g : FlowGraph) : LoopForest where
  bodies := .ofList (g.backEdges.map fun edge ↦ (edge.2, g.naturalLoop edge.2))
  reducible := g.retreating.all g.isBackEdge

end FlowGraph

end OwnershipFlow
