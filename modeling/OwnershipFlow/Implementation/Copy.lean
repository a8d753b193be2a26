import OwnershipFlow.Implementation
import OwnershipFlow.Supply

/-!
# Copies of implementations

A copy has the shape of its source under fresh identifiers for the implementation, the blocks and
the commands. Block identifiers are taken first, one for each block in order, then command
identifiers, block by block. Transfers and recorded predecessors follow their blocks; an identifier
that names no block of the source stays as it is. Where blocks of the source share an
identifier, all of them, and all mentions of it, become the identifier taken for the last of them.

Source and copy list their points in the same order (`Implementation.nodes`), so pairing the two
lists relates every point of the copy to the point that it was copied from (`copyPairs`).
-/

set_option autoImplicit false
set_option relaxedAutoImplicit false

namespace OwnershipFlow.Implementation

/-- The fresh identifier of every block, taken from number `next` on in block order. -/
def freshBlocks (blocks : List Block) (next : UInt32) : Std.ExtTreeMap BlockId BlockId :=
  .ofList ((blocks.map Block.id).zip (Ident.consecutive next blocks.length))

/-- Renames a block identifier; one that is not a key stays as it is. -/
def renameBlock (fresh : Std.ExtTreeMap BlockId BlockId) (id : BlockId) : BlockId :=
  fresh.getD id id

/-- Copies commands, numbering the copies from `next` on. -/
def copyCommands (next : UInt32) (commands : List Command) : List Command :=
  commands.zipWith (fun c id ↦ { c with id }) (Ident.consecutive next commands.length)

/-- Copies blocks, renaming block identifiers and numbering the commands from `next` on. -/
def copyBlocks (rename : BlockId → BlockId) : UInt32 → List Block → List Block
  | _, [] => []
  | next, b :: rest =>
    { b with
      id := rename b.id
      commands := copyCommands next b.commands
      transfer := b.transfer.rename rename
      predecessors := b.predecessors.map rename } ::
      copyBlocks rename (next + .ofNat b.commands.length) rest

/-- The copy of an implementation under fresh identifiers, and what is left of the supply. -/
def copy (imp : Implementation) (supply : Supply) : Implementation × Supply :=
  let (id, supply) := supply.freshImplementation
  let rename := renameBlock (freshBlocks imp.blocks supply.block)
  ({ imp with id, blocks := copyBlocks rename supply.command imp.blocks },
    (supply.skipBlocks imp.blocks.length).skipCommands imp.commands.length)

theorem copyCommands_cons (next : UInt32) (c : Command) (rest : List Command) :
    copyCommands next (c :: rest) =
      { c with id := ⟨next.toNat⟩ } :: copyCommands (next + 1) rest := rfl

/-- A copy of a command keeps what the command does. -/
theorem map_action_copyCommands (next : UInt32) (commands : List Command) :
    (copyCommands next commands).map Command.action = commands.map Command.action := by
  induction commands generalizing next with
  | nil => rfl
  | cons c rest ih => rw [copyCommands_cons, List.map_cons, ih, List.map_cons]

/-- Relates every point of a copy to the point of the source at the same place. -/
def copyPairs (derived source : Implementation) : List (Node × Node) :=
  derived.nodes.zip source.nodes

end OwnershipFlow.Implementation
