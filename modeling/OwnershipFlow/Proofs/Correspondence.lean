import Mathlib.Data.List.Zip
import OwnershipFlow.Proofs.Copying

/-!
# Points of a copy and their sources

The blocks of a copy correspond to the blocks of its source place by place (`forall₂_copyOf`): a
block of the copy is linked to the block that it was copied from, its transfer is that one's with
the new names, and its commands are linked to that one's commands, place by place too, and do the
same.
-/

set_option autoImplicit false
set_option relaxedAutoImplicit false

namespace OwnershipFlow

variable {imp derived : Implementation} {s : Supply} {r : BlockId → BlockId}
  {next : UInt32}

/-! ### Shapes -/

/-- A command does what another does, at the same place in the source text. -/
def Command.SameAs (c d : Command) : Prop :=
  d.action = c.action ∧ d.span = c.span

/-- A block has the shape of another, with block identifiers renamed. -/
structure Block.SameAs (r : BlockId → BlockId) (b d : Block) : Prop where
  id : d.id = r b.id
  label : d.label = b.label
  span : d.span = b.span
  transfer : d.transfer = b.transfer.rename r
  commands : List.Forall₂ Command.SameAs b.commands d.commands

namespace Implementation

theorem forall₂_copyCommands {commands : List Command} :
    List.Forall₂ Command.SameAs commands (copyCommands next commands) := by
  induction commands generalizing next with
  | nil => exact .nil
  | cons c rest ih =>
    rw [copyCommands_cons]
    exact .cons ⟨rfl, rfl⟩ ih

theorem predecessors_copyBlocks {blocks : List Block} :
    (copyBlocks r next blocks).map Block.predecessors = blocks.map (·.predecessors.map r) := by
  induction blocks generalizing next with
  | nil => rfl
  | cons b rest ih => rw [copyBlocks, List.map_cons, List.map_cons, ih]

theorem forall₂_sameAs_copyBlocks {blocks : List Block} :
    List.Forall₂ (Block.SameAs r) blocks (copyBlocks r next blocks) := by
  induction blocks generalizing next with
  | nil => exact .nil
  | cons b rest ih => exact .cons ⟨rfl, rfl, rfl, rfl, forall₂_copyCommands⟩ ih

end Implementation

/-! ### Links -/

/-- A command of a copy is linked to the command that it was copied from. -/
structure Command.CopyOf (imp derived : Implementation) (c d : Command) : Prop where
  link : (Node.command d.id, Node.command c.id) ∈ derived.copyPairs imp
  same : c.SameAs d

/-- A block of a copy is linked to the block that it was copied from, and so are its commands. -/
structure Block.CopyOf (imp derived : Implementation) (r : BlockId → BlockId) (b d : Block) :
    Prop where
  mem : b ∈ imp.blocks
  link : (Node.block d.id, Node.block b.id) ∈ derived.copyPairs imp
  same : b.SameAs r d
  commands : List.Forall₂ (Command.CopyOf imp derived) b.commands d.commands

namespace Implementation

/-- Blocks at the same place that have the same shape are linked at all their points. -/
theorem forall₂_copyOf (h : List.Forall₂ (Block.SameAs r) imp.blocks derived.blocks) :
    List.Forall₂ (Block.CopyOf imp derived r) imp.blocks derived.blocks := by
  refine List.forall₂_iff_zip.mpr ⟨h.length_eq, fun {b d} hbd ↦ ?_⟩
  have hsame := (List.forall₂_iff_zip.mp h).2 hbd
  have hmem := (List.of_mem_zip hbd).1
  have hlink : ∀ x ∈ d.nodes.zip b.nodes, x ∈ derived.copyPairs imp := by
    intro x hx
    refine List.mem_cons_of_mem _ (mem_zip_flatMap_of_forall₂ h (fun b d hsame ↦ ?_) hbd hx)
    simp only [Block.nodes, List.length_cons, List.length_map, hsame.commands.length_eq]
  have hcommands : ∀ {c e}, (c, e) ∈ b.commands.zip d.commands →
      (Node.command e.id, Node.command c.id) ∈ d.nodes.zip b.nodes := by
    intro c e hce
    unfold Block.nodes
    rw [List.zip_cons_cons, List.zip_map, ← List.zip_swap, List.map_map]
    exact List.mem_cons_of_mem _ (List.mem_map_of_mem hce)
  exact ⟨hmem, hlink _ List.mem_cons_self, hsame, List.forall₂_iff_zip.mpr
    ⟨hsame.commands.length_eq, fun hce ↦
      ⟨hlink _ (hcommands hce), (List.forall₂_iff_zip.mp hsame.commands).2 hce⟩⟩⟩

/-- Where points are distinct, each block is linked to its renaming and to no other block. -/
theorem block_mem_copyPairs_iff {a b : BlockId}
    (h : List.Forall₂ (Block.CopyOf imp derived r) imp.blocks derived.blocks)
    (hnodes : ((derived.copyPairs imp).map Prod.snd).Nodup) :
    (Node.block a, Node.block b) ∈ derived.copyPairs imp ↔ b ∈ imp.blockIds ∧ a = r b := by
  have hlinked : ∀ b ∈ imp.blockIds, (Node.block (r b), Node.block b) ∈ derived.copyPairs imp := by
    intro b hb
    obtain ⟨block, hblock, rfl⟩ := List.mem_map.mp hb
    obtain ⟨other, -, hcopy⟩ := exists_of_forall₂ h hblock
    exact hcopy.same.id ▸ hcopy.link
  constructor
  · intro hlink
    have hb := block_mem_nodes_iff.mp (List.of_mem_zip hlink).2
    have heq := List.inj_on_of_nodup_map hnodes hlink (hlinked b hb) rfl
    obtain ⟨heq, -⟩ := Prod.mk.inj heq
    exact ⟨hb, Node.block.inj heq⟩
  · rintro ⟨hb, rfl⟩
    exact hlinked b hb

/-- The blocks of a copy are linked to those of its source, place by place. -/
theorem forall₂_copyOf_copy :
    List.Forall₂ (Block.CopyOf imp (imp.copy s).1 (imp.freshName s)) imp.blocks
      (imp.copy s).1.blocks :=
  forall₂_copyOf forall₂_sameAs_copyBlocks

end Implementation

end OwnershipFlow
