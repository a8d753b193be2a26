import OwnershipFlow.Command

/-!
# Procedures and implementations

A procedure declares parameters. An implementation gives it a body: a list of blocks, of which the
first is the entry. A block runs its commands and then transfers control, either back to the caller
or to one of several targets.

Nothing here demands that block identifiers are distinct or that targets exist. Where several blocks
carry one identifier, looking it up finds the first of them (`Implementation.block?`), and that
block is the one that `Implementation.modifyBlock` changes.

`Implementation.nodes` lists the points of an implementation in a fixed order: the implementation
itself, then every block in order, each followed by its commands.
-/

set_option autoImplicit false
set_option relaxedAutoImplicit false

namespace OwnershipFlow

/-- Where control goes at the end of a block. A `goto` without targets goes nowhere, and is not a
return. -/
inductive Transfer
  | goto (targets : List BlockId)
  | ret
  deriving DecidableEq, Repr

namespace Transfer

/-- The blocks that control may go to, with repetitions. -/
def targets : Transfer → List BlockId
  | goto targets => targets
  | ret => []

/-- The transfer with every target renamed. -/
def rename (f : BlockId → BlockId) : Transfer → Transfer
  | goto targets => goto (targets.map f)
  | ret => ret

@[simp] theorem targets_rename (f : BlockId → BlockId) (t : Transfer) :
    (t.rename f).targets = t.targets.map f := by
  cases t <;> simp [rename, targets]

end Transfer

/-- A straight run of commands with a transfer at its end. The predecessors are a record that is
filled in on request, and are not kept up to date by changes to transfers. -/
structure Block where
  id : BlockId
  label : String
  commands : List Command
  transfer : Transfer
  predecessors : List BlockId
  span : Span
  deriving DecidableEq, Repr

namespace Block

/-- The targets of the block's transfer, with repetitions. -/
def successors (b : Block) : List BlockId :=
  b.transfer.targets

/-- The points of a block: the block, then its commands in order. -/
def nodes (b : Block) : List Node :=
  .block b.id :: b.commands.map (.command ·.id)

end Block

/-- The declaration of a procedure. -/
structure Procedure where
  id : ProcId
  name : String
  ins : List VarId
  outs : List VarId
  span : Span
  deriving DecidableEq, Repr

/-- A body for a procedure, with parameter lists and a name of its own. -/
structure Implementation where
  id : ImplId
  procedure : ProcId
  name : String
  ins : List VarId
  outs : List VarId
  locals : List VarId
  blocks : List Block
  span : Span
  deriving DecidableEq, Repr

namespace Implementation

/-- The entry is the first block, if there is one. -/
def entry? (imp : Implementation) : Option BlockId :=
  imp.blocks.head?.map Block.id

/-- The first block that carries an identifier. -/
def block? (imp : Implementation) (id : BlockId) : Option Block :=
  imp.blocks.find? (·.id = id)

/-- The identifiers of the blocks, in block order. -/
def blockIds (imp : Implementation) : List BlockId :=
  imp.blocks.map Block.id

/-- Changes the first block of a list that carries an identifier. -/
def modifyFirst (id : BlockId) (f : Block → Block) : List Block → List Block
  | [] => []
  | b :: rest => if b.id = id then f b :: rest else b :: modifyFirst id f rest

/-- Changes the block that `block?` finds; without such a block nothing changes. -/
def modifyBlock (imp : Implementation) (id : BlockId) (f : Block → Block) : Implementation :=
  { imp with blocks := modifyFirst id f imp.blocks }

/-- The commands of all blocks, in block order. -/
def commands (imp : Implementation) : List Command :=
  imp.blocks.flatMap Block.commands

/-- The points of an implementation: itself, then the points of its blocks in order. -/
def nodes (imp : Implementation) : List Node :=
  .implementation imp.id :: imp.blocks.flatMap Block.nodes

end Implementation

end OwnershipFlow
