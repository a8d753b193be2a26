import OwnershipFlow.Implementation

/-!
# The edges of an implementation

The control-flow edges of an implementation run from each block to the existing blocks that its
transfer names, once for every time that a target is named. They are kept in both directions. The
list of successors of a block is in the order of its transfer. The list of predecessors of a block
is in block order, and a block that names a target several times appears as often.

Where blocks share an identifier, the successors are those of the last of them, while all of them
count as predecessors of their targets.
-/

set_option autoImplicit false
set_option relaxedAutoImplicit false

namespace OwnershipFlow

/-- The entry of an implementation and the edges between its blocks, in both directions. -/
structure Edges where
  entry : BlockId
  successors : Std.ExtTreeMap BlockId (List BlockId)
  predecessors : Std.ExtTreeMap BlockId (List BlockId)
  deriving DecidableEq

namespace Edges

/-- Enters a block, without edges as yet. -/
def enter (e : Edges) (b : Block) : Edges :=
  { e with
    successors := e.successors.insert b.id []
    predecessors := e.predecessors.insertIfNew b.id [] }

/-- Adds a block to the predecessors of a target. -/
def addSource (source : BlockId) (predecessors : Std.ExtTreeMap BlockId (List BlockId))
    (target : BlockId) : Std.ExtTreeMap BlockId (List BlockId) :=
  predecessors.insert target (predecessors.getD target [] ++ [source])

/-- Draws the edges from a block to those of its targets that have been entered. -/
def connect (e : Edges) (b : Block) : Edges :=
  let targets := b.successors.filter e.successors.contains
  { e with
    successors := e.successors.insert b.id targets
    predecessors := targets.foldl (addSource b.id) e.predecessors }

/-- The edges between the blocks of an implementation: all blocks are entered before the first edge
is drawn. There are none without an entry. -/
def of? (imp : Implementation) : Option Edges :=
  imp.entry?.map fun entry ↦ imp.blocks.foldl connect (imp.blocks.foldl enter ⟨entry, ∅, ∅⟩)

/-- The successors of a block; a block that does not exist has none. -/
def next (e : Edges) (b : BlockId) : List BlockId :=
  e.successors.getD b []

/-- The predecessors of a block; a block that does not exist has none. -/
def prior (e : Edges) (b : BlockId) : List BlockId :=
  e.predecessors.getD b []

end Edges

end OwnershipFlow
