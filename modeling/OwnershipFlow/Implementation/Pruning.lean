import OwnershipFlow.FlowGraph.Search
import OwnershipFlow.Implementation

/-!
# Unreachable blocks and recorded predecessors

Pruning removes the blocks to which no sequence of transfers leads from the entry; what stays keeps
its order. Where blocks share an identifier, control is taken to continue at the first of them, and
they stay or go together.

The recorded predecessors of a block are the blocks that name it as a target, each once, in block
order. They are noted for all targets in one pass over the blocks, and each block then takes what is
noted for it. Where blocks share an identifier, only the first of them has its predecessors
recorded.
-/

set_option autoImplicit false
set_option relaxedAutoImplicit false

namespace OwnershipFlow.Implementation

/-- The existing targets of the first block that carries an identifier. -/
def targetsOf (imp : Implementation) (id : BlockId) : List BlockId :=
  ((imp.block? id).elim [] Block.successors).filter imp.blockIds.contains

/-- The blocks to which transfers lead from a given block, itself included. -/
def reachableFrom (imp : Implementation) (id : BlockId) : BlockSet :=
  (Search.explore imp.targetsOf imp.blockIds id (imp.targetsOf id)).visited

/-- Removes the blocks that cannot be reached from the entry. -/
def prune (imp : Implementation) : Implementation :=
  match imp.entry? with
  | none => imp
  | some entry =>
    let reachable := imp.reachableFrom entry
    { imp with blocks := imp.blocks.filter (·.id ∈ reachable) }

/-- The number of blocks that pruning removes. -/
def unreachableCount (imp : Implementation) : Nat :=
  imp.blocks.length - imp.prune.blocks.length

/-- Notes a block as a predecessor of a target, unless it has been noted already. Targets are noted
whether they exist or not. -/
def noteSource (source : BlockId) (noted : Std.ExtTreeMap BlockId (List BlockId))
    (target : BlockId) : Std.ExtTreeMap BlockId (List BlockId) :=
  let sources := noted.getD target []
  noted.insert target (if sources.contains source then sources else sources ++ [source])

/-- The predecessors of every target that is named, noted block by block and target by target. -/
def notedSources (blocks : List Block) : Std.ExtTreeMap BlockId (List BlockId) :=
  blocks.foldl (fun noted b ↦ b.successors.foldl (noteSource b.id) noted) ∅

/-- Gives every block in turn what has been noted for it and strikes that off the notes, so a block
whose identifier has been seen before gets none. -/
def recordFrom : Std.ExtTreeMap BlockId (List BlockId) → List Block → List Block
  | _, [] => []
  | noted, b :: rest =>
    { b with predecessors := noted.getD b.id [] } :: recordFrom (noted.erase b.id) rest

/-- Records in every block its predecessors, whatever was recorded before. -/
def recordPredecessors (imp : Implementation) : Implementation :=
  { imp with blocks := recordFrom (notedSources imp.blocks) imp.blocks }

end OwnershipFlow.Implementation
