import OwnershipFlow.Proofs.Numbering
import OwnershipFlow.Proofs.Origins
import OwnershipFlow.Proofs.Renaming

/-!
# Copying an implementation

Where block identifiers are distinct, copying numbers the blocks and the commands of the copy in a
row (`blockIds_copy`, `commandIds_copy`). As long as no counter passes its greatest value
(`FitsIn`), all points of the copy are therefore new and distinct (`mem_nodes_copy`). The copy then
renames its source (`copy_renames`): a target that is no block keeps its old identifier, and that
is none of the new ones. Recorded links lead from each point of the copy to what the corresponding
point of its source stands for (`map_resolve_record_copyPairs`).
-/

set_option autoImplicit false
set_option relaxedAutoImplicit false

namespace OwnershipFlow

namespace Implementation

variable {imp : Implementation} {s : Supply} {r : BlockId → BlockId} {next : UInt32}
  {blocks : List Block} {b : BlockId} {n : Node}

/-- The identifiers of an implementation, those of targets included, have been handed out. -/
def IssuedBy (s : Supply) (imp : Implementation) : Prop :=
  (∀ n ∈ imp.nodes, s.Issued n) ∧ ∀ b ∈ imp.blocks, ∀ t ∈ b.successors, s.Issued (.block t)

instance : Decidable (imp.IssuedBy s) :=
  inferInstanceAs (Decidable (_ ∧ _))

theorem IssuedBy.index_lt (h : imp.IssuedBy s) : ∀ c ∈ imp.commands, c.id.index < s.command.toNat :=
  fun c hc ↦ h.1 (.command c.id) (command_mem_nodes_iff.mpr (List.mem_map_of_mem hc))

/-- An implementation can be copied without a counter passing its greatest value. -/
structure FitsIn (imp : Implementation) (s : Supply) : Prop where
  implementation : s.implementation.toNat + 1 < UInt32.size
  block : s.block.toNat + imp.blocks.length < UInt32.size
  command : s.HasCommands imp.commands.length

instance : Decidable (imp.FitsIn s) :=
  decidable_of_iff (_ ∧ _ ∧ _) ⟨fun h ↦ ⟨h.1, h.2.1, h.2.2⟩, fun h ↦ ⟨h.1, h.2, h.3⟩⟩

/-! ### Blocks and commands of a copy -/

theorem forall₂_copyBlocks :
    List.Forall₂ (Block.Renames r) blocks (copyBlocks r next blocks) := by
  induction blocks generalizing next with
  | nil => exact .nil
  | cons b rest ih =>
    rw [copyBlocks]
    exact .cons ⟨rfl, map_action_copyCommands .., Transfer.targets_rename ..⟩ ih

theorem commandIds_copyCommands {commands : List Command} :
    (copyCommands next commands).map Command.id = Ident.consecutive next commands.length := by
  induction commands generalizing next with
  | nil => rfl
  | cons c rest ih =>
    rw [copyCommands_cons, List.map_cons, ih, List.length_cons, Ident.consecutive]

theorem commandIds_copyBlocks :
    ((copyBlocks r next blocks).flatMap Block.commands).map Command.id =
      Ident.consecutive next (blocks.flatMap Block.commands).length := by
  induction blocks generalizing next with
  | nil => rfl
  | cons b rest ih =>
    rw [copyBlocks, List.flatMap_cons, List.map_append, commandIds_copyCommands, ih,
      List.flatMap_cons, List.length_append, Ident.consecutive_add]

/-- The new name of a block. -/
def freshName (imp : Implementation) (s : Supply) : BlockId → BlockId :=
  renameBlock (freshBlocks imp.blocks s.block)

/-- The identifiers that have a new name are those of the blocks. -/
theorem keys_freshBlocks :
    ((blocks.map Block.id).zip (Ident.consecutive next blocks.length : List BlockId)).map
      Prod.fst = blocks.map Block.id :=
  List.map_fst_zip (by rw [List.length_map, Ident.length_consecutive])

theorem freshName_of_not_mem (h : b ∉ imp.blockIds) : imp.freshName s b = b := by
  have hnone : (freshBlocks imp.blocks s.block)[b]? = none :=
    getElem?_map_ofList_eq_none (by rw [keys_freshBlocks]; exact h)
  rw [freshName, renameBlock, Std.ExtTreeMap.getD_eq_getD_getElem?, hnone, Option.getD_none]

/-- New names are given to the blocks in a row. -/
theorem map_freshName (hids : imp.blockIds.Nodup) :
    imp.blockIds.map (imp.freshName s) = Ident.consecutive s.block imp.blocks.length := by
  have hlength : imp.blockIds.length =
      (Ident.consecutive s.block imp.blocks.length : List BlockId).length := by
    rw [blockIds, List.length_map, Ident.length_consecutive]
  have hname : ∀ x ∈ imp.blockIds.zip (Ident.consecutive s.block imp.blocks.length),
      imp.freshName s x.1 = x.2 := by
    intro x hx
    have hsome : (freshBlocks imp.blocks s.block)[x.1]? = some x.2 :=
      getElem?_map_ofList (by rw [keys_freshBlocks]; exact hids) hx
    rw [freshName, renameBlock, Std.ExtTreeMap.getD_eq_getD_getElem?, hsome, Option.getD_some]
  calc imp.blockIds.map (imp.freshName s)
      = (imp.blockIds.zip (Ident.consecutive s.block imp.blocks.length)).map
          fun x ↦ imp.freshName s x.1 := by
        conv_lhs => rw [← List.map_fst_zip hlength.le]
        rw [List.map_map]
        rfl
    _ = (imp.blockIds.zip (Ident.consecutive s.block imp.blocks.length)).map Prod.snd :=
        List.map_congr_left hname
    _ = Ident.consecutive s.block imp.blocks.length := List.map_snd_zip hlength.ge

/-! ### The copy -/

theorem blockIds_copy (hids : imp.blockIds.Nodup) :
    (imp.copy s).1.blockIds = Ident.consecutive s.block imp.blocks.length := by
  rw [← map_freshName hids, blockIds, blockIds, List.map_map]
  exact (map_eq_map_of_forall₂ forall₂_copyBlocks fun b d hsame ↦ hsame.id.symm).symm

theorem commandIds_copy : (imp.copy s).1.commands.map Command.id =
    Ident.consecutive s.command imp.commands.length :=
  commandIds_copyBlocks

theorem nodup_nodes_copy (hids : imp.blockIds.Nodup) (hfits : imp.FitsIn s) :
    (imp.copy s).1.nodes.Nodup := by
  rw [nodup_nodes_iff, blockIds_copy hids, commandIds_copy]
  exact ⟨Ident.nodup_consecutive hfits.block, Ident.nodup_consecutive hfits.command⟩

theorem nodup_blockIds_copy (hids : imp.blockIds.Nodup) (hfits : imp.FitsIn s) :
    (imp.copy s).1.blockIds.Nodup :=
  (nodup_nodes_iff.mp (nodup_nodes_copy hids hfits)).1

/-- The counters after a copy, none of which has passed its greatest value. -/
theorem FitsIn.counters (h : imp.FitsIn s) :
    (imp.copy s).2.implementation.toNat = s.implementation.toNat + 1 ∧
      (imp.copy s).2.block.toNat = s.block.toNat + imp.blocks.length ∧
      (imp.copy s).2.command.toNat = s.command.toNat + imp.commands.length :=
  ⟨toNat_add_ofNat (n := 1) h.implementation, toNat_add_ofNat h.block, toNat_add_ofNat h.command⟩

/-- The points of a copy are new. -/
theorem mem_nodes_copy (hids : imp.blockIds.Nodup) (hfits : imp.FitsIn s)
    (hn : n ∈ (imp.copy s).1.nodes) : ¬ s.Issued n ∧ (imp.copy s).2.Issued n := by
  obtain ⟨himplementation, hblock, hcommand⟩ := hfits.counters
  rw [mem_nodes_iff, blockIds_copy hids, commandIds_copy] at hn
  rcases hn with rfl | ⟨b, hb, rfl⟩ | ⟨c, hc, rfl⟩
  · exact ⟨Nat.lt_irrefl _, (Nat.lt_succ_self _).trans_eq himplementation.symm⟩
  · rw [Ident.mem_consecutive hfits.block] at hb
    exact ⟨Nat.not_lt.mpr hb.1, hb.2.trans_eq hblock.symm⟩
  · rw [Ident.mem_consecutive hfits.command] at hc
    exact ⟨Nat.not_lt.mpr hc.1, hc.2.trans_eq hcommand.symm⟩

/-- What was handed out before stays so. -/
theorem issued_copy (hfits : imp.FitsIn s) (h : s.Issued n) : (imp.copy s).2.Issued n := by
  obtain ⟨himplementation, hblock, hcommand⟩ := hfits.counters
  cases n with
  | procedure id => exact h
  | implementation id => exact (Nat.lt_succ_of_lt h).trans_eq himplementation.symm
  | block id => exact (Nat.lt_add_right _ h).trans_eq hblock.symm
  | command id => exact (Nat.lt_add_right _ h).trans_eq hcommand.symm

/-- A copy renames its source. -/
theorem copy_renames (hids : imp.blockIds.Nodup) (hfits : imp.FitsIn s)
    (htargets : ∀ b ∈ imp.blocks, ∀ t ∈ b.successors, s.Issued (.block t)) :
    Renames (imp.freshName s) imp (imp.copy s).1 where
  ins := rfl
  blocks := forall₂_copyBlocks
  targets := by
    intro b hb t ht hin
    by_contra hout
    rw [freshName_of_not_mem hout] at hin
    exact (mem_nodes_copy hids hfits (block_mem_nodes_iff.mpr hin)).1
      (htargets b hb t ht)

/-- The targets in a copy are those of its source or new. -/
theorem issued_target_copy (hids : imp.blockIds.Nodup) (hfits : imp.FitsIn s)
    (htargets : ∀ b ∈ imp.blocks, ∀ t ∈ b.successors, s.Issued (.block t)) :
    ∀ b ∈ (imp.copy s).1.blocks, ∀ t ∈ b.successors, (imp.copy s).2.Issued (.block t) := by
  have hcopy := copy_renames hids hfits htargets
  intro d hd t ht
  obtain ⟨b, hb, hsame⟩ := exists_of_forall₂ hcopy.blocks.flip hd
  rw [hsame.successors] at ht
  obtain ⟨u, hu, rfl⟩ := List.mem_map.mp ht
  by_cases hin : u ∈ imp.blockIds
  · exact (mem_nodes_copy hids hfits (block_mem_nodes_iff.mpr (hcopy.mem_blockIds hin))).2
  · rw [freshName_of_not_mem hin]
    exact issued_copy hfits (htargets b hb u hu)

/-! ### Links -/

section Links

variable {o : Origins} {m : Node} (hids : imp.blockIds.Nodup) (hfits : imp.FitsIn s)
  (hlength : imp.nodes.length = (imp.copy s).1.nodes.length)
  (hnodes : ∀ n ∈ imp.nodes, s.Issued n) (hold : o.LeadsTo s.Issued)

include hids hfits hnodes

theorem new_old_copyPairs :
    ∀ x ∈ copyPairs (imp.copy s).1 imp, ¬ s.Issued x.1 ∧ s.Issued x.2 := by
  intro x hx
  have hx := List.of_mem_zip hx
  exact ⟨(mem_nodes_copy hids hfits hx.1).1, hnodes _ hx.2⟩

include hold

/-- The links of other points stay. -/
theorem get?_record_copyPairs_of_issued (hn : s.Issued n) :
    (o.record (copyPairs (imp.copy s).1 imp)).get? n = o.get? n := by
  refine hold.get?_record_of_not_mem (new_old_copyPairs hids hfits hnodes) fun hmem ↦ ?_
  obtain ⟨x, hx, rfl⟩ := List.mem_map.mp hmem
  exact (new_old_copyPairs hids hfits hnodes x hx).1 hn

include hlength

/-- A point of a copy stands for what the point that it was copied from stands for. -/
theorem get?_record_copyPairs_of_mem (hmem : (n, m) ∈ copyPairs (imp.copy s).1 imp) :
    (o.record (copyPairs (imp.copy s).1 imp)).get? n = some (o.resolve m) := by
  have hkeys : (copyPairs (imp.copy s).1 imp).map Prod.fst = (imp.copy s).1.nodes :=
    List.map_fst_zip hlength.ge
  refine hold.get?_record_of_mem (new_old_copyPairs hids hfits hnodes) ?_ hmem
  rw [hkeys]
  exact nodup_nodes_copy hids hfits

theorem map_resolve_record_copyPairs :
    (imp.copy s).1.nodes.map (o.record (copyPairs (imp.copy s).1 imp)).resolve =
      imp.nodes.map o.resolve := by
  have hkeys : (copyPairs (imp.copy s).1 imp).map Prod.fst = (imp.copy s).1.nodes :=
    List.map_fst_zip hlength.ge
  have hsources : (copyPairs (imp.copy s).1 imp).map Prod.snd = imp.nodes :=
    List.map_snd_zip hlength.le
  conv_lhs => rw [← hkeys]
  conv_rhs => rw [← hsources]
  rw [List.map_map, List.map_map]
  refine List.map_congr_left fun x hx ↦ ?_
  rw [Function.comp, Function.comp, Origins.resolve,
    get?_record_copyPairs_of_mem hids hfits hlength hnodes hold hx, Option.getD_some]

end Links

end Implementation

end OwnershipFlow
