import Mathlib.Data.List.Nodup
import Mathlib.Data.List.Pairwise
import OwnershipFlow.Proofs.Edges

/-!
# Looking up blocks

Where the identifiers of the blocks of an implementation are distinct, looking up the identifier
of a block finds that block (`block?_of_mem`), so the targets of a block are those of its own
transfer that exist (`mem_targetsOf`). The edges of the flow graph are then these targets
(`next_eq_targetsOf`), and the predecessors are the edges read backwards (`mem_prior`). Where
identifiers are repeated, the edges still lead to blocks (`mem_keys_of_mem_next`) and are among the
predecessors read backwards (`mem_prior_of_mem_next`).

The points of an implementation are itself, its blocks and its commands (`mem_nodes_iff`), so no
point occurs twice where block identifiers and command identifiers are distinct
(`nodup_nodes_iff`).
-/

set_option autoImplicit false
set_option relaxedAutoImplicit false

namespace OwnershipFlow

variable {imp : Implementation} {block : Block} {id u v entry : BlockId}

namespace Implementation

theorem block?_eq_some (h : imp.block? id = some block) : block ∈ imp.blocks ∧ block.id = id := by
  refine ⟨List.mem_of_find?_eq_some h, ?_⟩
  have hid := List.find?_some h
  exact of_decide_eq_true hid

theorem exists_block? (h : id ∈ imp.blockIds) : ∃ block, imp.block? id = some block := by
  obtain ⟨block, hblock, rfl⟩ := List.mem_map.mp h
  refine Option.isSome_iff_exists.mp (List.find?_isSome.mpr ⟨block, hblock, ?_⟩)
  exact decide_eq_true rfl

theorem block?_eq_none (h : id ∉ imp.blockIds) : imp.block? id = none := by
  refine List.find?_eq_none.mpr fun block hblock hid ↦ h ?_
  exact List.mem_map.mpr ⟨block, hblock, of_decide_eq_true hid⟩

/-- A block is what its identifier finds. -/
theorem block?_of_mem (hids : imp.blockIds.Nodup) (h : block ∈ imp.blocks) :
    imp.block? block.id = some block := by
  obtain ⟨other, hother⟩ := exists_block? (List.mem_map_of_mem h)
  obtain ⟨hmem, hid⟩ := block?_eq_some hother
  rw [hother, List.inj_on_of_nodup_map hids hmem h hid]

theorem entry_mem_blockIds (hentry : imp.entry? = some entry) : entry ∈ imp.blockIds := by
  obtain ⟨block, hblock, rfl⟩ := Option.map_eq_some_iff.mp hentry
  exact List.mem_map_of_mem (List.mem_of_mem_head? hblock)

theorem mem_blockIds_of_mem_targetsOf (h : v ∈ imp.targetsOf u) : v ∈ imp.blockIds :=
  List.contains_iff_mem.mp (List.mem_filter.mp h).2

/-- The targets of a block are the existing blocks that its transfer names. -/
theorem mem_targetsOf (hids : imp.blockIds.Nodup) (h : block ∈ imp.blocks) :
    v ∈ imp.targetsOf block.id ↔ v ∈ block.successors ∧ v ∈ imp.blockIds := by
  rw [targetsOf, block?_of_mem hids h, Option.elim_some, List.mem_filter, List.contains_iff_mem]

/-- Only blocks have targets. -/
theorem exists_of_mem_targetsOf (h : v ∈ imp.targetsOf u) :
    ∃ block ∈ imp.blocks, block.id = u ∧ v ∈ block.successors ∧ v ∈ imp.blockIds := by
  have hids := mem_blockIds_of_mem_targetsOf h
  cases hblock : imp.block? u with
  | none =>
    rw [targetsOf, hblock] at h
    exact absurd h List.not_mem_nil
  | some block =>
    obtain ⟨hmem, hid⟩ := block?_eq_some hblock
    rw [targetsOf, hblock] at h
    exact ⟨block, hmem, hid, (List.mem_filter.mp h).1, hids⟩

theorem mem_commands {c : Command} (h : block ∈ imp.blocks) (hc : c ∈ block.commands) :
    c ∈ imp.commands :=
  List.mem_flatMap.mpr ⟨block, h, hc⟩

/-! ### Points -/

theorem mem_nodes_block_iff {n : Node} :
    n ∈ block.nodes ↔ n = .block block.id ∨ ∃ c ∈ block.commands, n = .command c.id := by
  rw [Block.nodes, List.mem_cons, List.mem_map]
  simp only [eq_comm]

theorem nodes_blocks_perm {blocks : List Block} : (blocks.flatMap Block.nodes).Perm
    (blocks.map (.block ·.id) ++ (blocks.flatMap Block.commands).map (.command ·.id)) := by
  induction blocks with
  | nil => exact .nil
  | cons b rest ih =>
    rw [List.flatMap_cons, List.flatMap_cons, List.map_cons, List.map_append, Block.nodes]
    exact ((ih.append_left _).trans (List.perm_append_comm_assoc _ _ _)).cons _

/-- The blocks and the commands of an implementation. -/
def flowNodes (imp : Implementation) : List Node :=
  imp.blocks.flatMap Block.nodes

theorem flowNodes_perm : imp.flowNodes.Perm
    (imp.blockIds.map .block ++ (imp.commands.map Command.id).map .command) := by
  unfold flowNodes blockIds commands
  rw [List.map_map, List.map_map]
  exact nodes_blocks_perm

theorem mem_flowNodes_iff {n : Node} : n ∈ imp.flowNodes ↔
    (∃ b ∈ imp.blockIds, n = .block b) ∨ ∃ c ∈ imp.commands.map Command.id, n = .command c := by
  rw [flowNodes_perm.mem_iff, List.mem_append, List.mem_map, List.mem_map]
  simp only [eq_comm]

/-- The points are the implementation, its blocks and its commands. -/
theorem mem_nodes_iff {n : Node} : n ∈ imp.nodes ↔ n = .implementation imp.id ∨
    (∃ b ∈ imp.blockIds, n = .block b) ∨ ∃ c ∈ imp.commands.map Command.id, n = .command c :=
  List.mem_cons.trans (or_congr_right mem_flowNodes_iff)

theorem implementation_not_mem_flowNodes {k : ImplId} :
    Node.implementation k ∉ imp.flowNodes := by
  simp [mem_flowNodes_iff]

theorem implementation_mem_nodes_iff {k : ImplId} :
    Node.implementation k ∈ imp.nodes ↔ k = imp.id := by
  simp [mem_nodes_iff]

theorem block_mem_nodes_iff {b : BlockId} : Node.block b ∈ imp.nodes ↔ b ∈ imp.blockIds := by
  simp [mem_nodes_iff]

theorem command_mem_nodes_iff {c : CommandId} :
    Node.command c ∈ imp.nodes ↔ c ∈ imp.commands.map Command.id := by
  simp [mem_nodes_iff]

/-- No point occurs twice if no block identifier and no command identifier does. -/
theorem nodup_flowNodes_iff :
    imp.flowNodes.Nodup ↔ imp.blockIds.Nodup ∧ (imp.commands.map Command.id).Nodup := by
  have hblock : Function.Injective Node.block := fun _ _ heq ↦ by injection heq
  have hcommand : Function.Injective Node.command := fun _ _ heq ↦ by injection heq
  rw [flowNodes_perm.nodup_iff, List.nodup_append', List.nodup_map_iff hblock,
    List.nodup_map_iff hcommand]
  simp [List.disjoint_left]

theorem nodup_nodes_iff :
    imp.nodes.Nodup ↔ imp.blockIds.Nodup ∧ (imp.commands.map Command.id).Nodup :=
  (List.nodup_cons.trans (and_iff_right implementation_not_mem_flowNodes)).trans nodup_flowNodes_iff

section Distinct

variable {other : Block} {n : Node} (hids : imp.blockIds.Nodup)
  (hcommands : (imp.commands.map Command.id).Nodup)

include hids hcommands

/-- A block has no point twice. -/
theorem nodup_nodes_block (h : block ∈ imp.blocks) : block.nodes.Nodup := by
  have hnodes := nodup_flowNodes_iff.mpr ⟨hids, hcommands⟩
  exact (List.nodup_flatMap.mp hnodes).1 block h

/-- Distinct blocks have no point in common. -/
theorem eq_of_mem_nodes (h : block ∈ imp.blocks) (hother : other ∈ imp.blocks)
    (hn : n ∈ block.nodes) (hn' : n ∈ other.nodes) : block = other := by
  have hnodes := nodup_flowNodes_iff.mpr ⟨hids, hcommands⟩
  by_contra hne
  exact (List.nodup_flatMap.mp hnodes).2.forall h hother hne hn hn'

end Distinct

end Implementation

namespace Edges

variable {e : Edges}

theorem entry?_of_of? (he : Edges.of? imp = some e) : imp.entry? = some e.entry := by
  rw [of?_eq] at he
  obtain ⟨entry, hentry, rfl⟩ := Option.map_eq_some_iff.mp he
  exact hentry

/-- Successors are recorded for the blocks. -/
theorem mem_successors_iff (he : Edges.of? imp = some e) : u ∈ e.successors ↔ u ∈ imp.blockIds := by
  rw [of?_eq] at he
  obtain ⟨entry, -, rfl⟩ := Option.map_eq_some_iff.mp he
  rw [mem_map_ofList, List.map_map]
  exact Iff.rfl

/-- Predecessors are recorded for the blocks. -/
theorem mem_predecessors_iff (he : Edges.of? imp = some e) :
    u ∈ e.predecessors ↔ u ∈ imp.blockIds := by
  rw [of?_eq] at he
  obtain ⟨entry, -, rfl⟩ := Option.map_eq_some_iff.mp he
  rw [mem_map_ofList, List.map_map]
  exact Iff.rfl

theorem mem_sources {blocks : List Block} :
    u ∈ sources blocks v ↔ ∃ block ∈ blocks, block.id = u ∧ v ∈ block.successors := by
  rw [sources, List.mem_flatMap]
  refine exists_congr fun block ↦ and_congr_right fun _ ↦ ?_
  rw [List.mem_replicate, ← Nat.pos_iff_ne_zero, List.count_pos_iff, and_comm, eq_comm]

section Repeated

variable (he : Edges.of? imp = some e)

include he

/-- An edge comes from a block that names an existing one, also where identifiers are repeated. -/
theorem exists_of_mem_next (h : v ∈ e.next u) :
    ∃ block ∈ imp.blocks, block.id = u ∧ v ∈ block.successors ∧ v ∈ imp.blockIds := by
  rw [of?_eq] at he
  obtain ⟨entry, -, rfl⟩ := Option.map_eq_some_iff.mp he
  rw [next, Std.ExtTreeMap.getD_eq_getD_getElem?] at h
  generalize htargets : (Std.ExtTreeMap.ofList
    (imp.blocks.map fun b ↦ (b.id, existing imp.blocks b)))[u]? = targets at h
  cases targets with
  | none => exact absurd h List.not_mem_nil
  | some targets =>
    obtain ⟨block, hblock, heq⟩ := List.mem_map.mp (mem_of_getElem?_map_ofList htargets)
    obtain ⟨hid, rfl⟩ := Prod.mk.inj heq
    obtain ⟨hnames, hexists⟩ := List.mem_filter.mp h
    exact ⟨block, hblock, hid, hnames, List.contains_iff_mem.mp hexists⟩

/-- Edges lead to blocks. -/
theorem mem_keys_of_mem_next (h : v ∈ e.next u) : v ∈ e.successors.keys := by
  obtain ⟨-, -, -, -, hv⟩ := exists_of_mem_next he h
  exact Std.ExtTreeMap.mem_keys.mpr ((mem_successors_iff he).mpr hv)

/-- The predecessors of a block are on record, also where identifiers are repeated. -/
theorem getElem?_predecessors (h : u ∈ imp.blockIds) :
    e.predecessors[u]? = some (sources imp.blocks u) := by
  rw [of?_eq] at he
  obtain ⟨entry, -, rfl⟩ := Option.map_eq_some_iff.mp he
  exact getElem?_map_ofList_map.trans (if_pos h)

/-- Every edge is recorded among the predecessors, also where identifiers are repeated and some of
the predecessors come from blocks whose edges are not recorded. -/
theorem mem_prior_of_mem_next (h : v ∈ e.next u) : u ∈ e.prior v := by
  obtain ⟨source, hsource, hid, hnames, hv⟩ := exists_of_mem_next he h
  rw [prior, Std.ExtTreeMap.getD_eq_getD_getElem?, getElem?_predecessors he hv, Option.getD_some]
  exact mem_sources.mpr ⟨source, hsource, hid, hnames⟩

end Repeated

section Distinct

variable (hids : imp.blockIds.Nodup) (he : Edges.of? imp = some e)

include hids he

/-- The successors of a block are on record. -/
theorem getElem?_successors (h : u ∈ imp.blockIds) :
    e.successors[u]? = some (imp.targetsOf u) := by
  obtain ⟨block, hblock, rfl⟩ := List.mem_map.mp h
  rw [of?_eq] at he
  obtain ⟨entry, -, rfl⟩ := Option.map_eq_some_iff.mp he
  have hkeys : ((imp.blocks.map fun b ↦ (b.id, existing imp.blocks b)).map Prod.fst).Nodup := by
    rw [List.map_map]
    exact hids
  rw [Implementation.targetsOf, Implementation.block?_of_mem hids hblock]
  exact getElem?_map_ofList hkeys (List.mem_map_of_mem hblock)

/-- The successors of a block are its existing targets. -/
theorem next_eq_targetsOf (id : BlockId) : e.next id = imp.targetsOf id := by
  rw [next, Std.ExtTreeMap.getD_eq_getD_getElem?]
  by_cases hid : id ∈ imp.blockIds
  · rw [getElem?_successors hids he hid, Option.getD_some]
  · have hnone : e.successors[id]? = none :=
      Std.ExtTreeMap.getElem?_eq_none (mt (mem_successors_iff he).mp hid)
    rw [hnone, Option.getD_none, Implementation.targetsOf, Implementation.block?_eq_none hid]
    rfl

/-- The predecessors of a block are the blocks that have it as a target. -/
theorem mem_prior : u ∈ e.prior v ↔ v ∈ imp.targetsOf u := by
  rw [prior, Std.ExtTreeMap.getD_eq_getD_getElem?]
  by_cases hv : v ∈ imp.blockIds
  · rw [getElem?_predecessors he hv, Option.getD_some, mem_sources]
    constructor
    · rintro ⟨source, hsource, rfl, hin⟩
      exact (Implementation.mem_targetsOf hids hsource).mpr ⟨hin, hv⟩
    · intro h
      obtain ⟨source, hsource, hid, hin, -⟩ := Implementation.exists_of_mem_targetsOf h
      exact ⟨source, hsource, hid, hin⟩
  · have hnone : e.predecessors[v]? = none :=
      Std.ExtTreeMap.getElem?_eq_none (mt (mem_predecessors_iff he).mp hv)
    rw [hnone, Option.getD_none]
    exact iff_of_false List.not_mem_nil fun h ↦
      hv (Implementation.mem_blockIds_of_mem_targetsOf h)

end Distinct

end Edges

end OwnershipFlow
