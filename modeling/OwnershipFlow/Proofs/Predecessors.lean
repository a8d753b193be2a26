import OwnershipFlow.Proofs.ImmediateDominators

/-!
# The two records of predecessors

Predecessors are computed twice, each time by a loop over the blocks of its own. A flow graph leaves
out targets that do not exist, and then adds a block to the predecessors of a target once for every
time that it names it. For an implementation a block is noted once for each of its targets, those
that do not exist among them, and each block then takes what has been noted for it. What the two
loops have collected in the end (`Edges.of?_eq`, `getD_notedSources`) comes from the same edges
(`recorded_predecessors_match`): a block is named by another in the graph as often as the graph
lists the other as a predecessor (`count_prior`), and without the repetitions the list of the graph
is the one that is stored (`eraseDups_sources`).

What was stored before does not matter, and after pruning only blocks that are left are stored.
Every one of them but the entry has a predecessor, since the walk that reaches it has a last edge
(`Reachable.exists_source`).
-/

set_option autoImplicit false
set_option relaxedAutoImplicit false

namespace OwnershipFlow

variable {imp : Implementation} {block : Block} {blocks : List Block} {b u v : BlockId}

namespace Edges

variable {e : Edges}

/-- A block that is not there is nobody's predecessor. -/
theorem not_mem_sources (h : u ∉ blocks.map Block.id) : u ∉ sources blocks v := by
  rw [mem_sources]
  rintro ⟨block, hblock, rfl, -⟩
  exact h (List.mem_map_of_mem hblock)

/-- Where identifiers are distinct, a block is listed as often as it names the target. -/
theorem count_sources (hids : (blocks.map Block.id).Nodup) (h : block ∈ blocks) :
    (sources blocks v).count block.id = block.successors.count v := by
  induction blocks with
  | nil => exact absurd h List.not_mem_nil
  | cons first rest ih =>
    rw [List.map_cons, List.nodup_cons] at hids
    rw [sources, List.flatMap_cons, List.count_append, List.count_replicate, ← sources]
    rcases List.mem_cons.mp h with rfl | hrest
    · rw [if_pos (beq_self_eq_true _), List.count_eq_zero.mpr (not_mem_sources hids.1),
        Nat.add_zero]
    · have hne : first.id ≠ block.id := fun heq ↦ hids.1 (heq ▸ List.mem_map_of_mem hrest)
      rw [if_neg fun heq ↦ hne (beq_iff_eq.mp heq), Nat.zero_add, ih hids.2 hrest]

/-- Where identifiers are distinct, the predecessors without their repetitions are the blocks that
name the target. -/
theorem eraseDups_sources (hids : (blocks.map Block.id).Nodup) :
    (sources blocks v).eraseDups = (blocks.filter (·.successors.contains v)).map Block.id := by
  induction blocks with
  | nil => rfl
  | cons first rest ih =>
    rw [List.map_cons, List.nodup_cons] at hids
    rw [sources, List.flatMap_cons, ← sources]
    by_cases hnames : v ∈ first.successors
    · -- All repetitions of the first block stand together, and it does not come again.
      obtain ⟨n, hn⟩ := Nat.exists_eq_succ_of_ne_zero (List.count_pos_iff.mpr hnames).ne'
      have hsame : ∀ n, (List.replicate n first.id).filter (fun c ↦ !c == first.id) = [] := by
        intro n
        simp
      have hother : (sources rest v).filter (fun c ↦ !c == first.id) = sources rest v := by
        refine List.filter_eq_self.mpr fun c hc ↦ ?_
        rw [Bool.not_eq_true', beq_eq_false_iff_ne]
        rintro rfl
        exact not_mem_sources hids.1 hc
      rw [hn, List.replicate_succ, List.cons_append, List.eraseDups_cons, List.filter_append,
        hsame, hother, List.nil_append, ih hids.2, List.filter_cons,
        if_pos (List.contains_iff_mem.mpr hnames), List.map_cons]
    · rw [List.count_eq_zero.mpr hnames, List.replicate_zero, List.nil_append, ih hids.2,
        List.filter_cons, if_neg fun h ↦ hnames (List.contains_iff_mem.mp h)]

/-- Every edge is recorded at both of its ends. -/
theorem count_prior (hids : imp.blockIds.Nodup) (he : Edges.of? imp = some e) (u v : BlockId) :
    (e.prior v).count u = (e.next u).count v := by
  by_cases hedge : u ∈ e.prior v
  · have htarget := (mem_prior hids he).mp hedge
    obtain ⟨block, hblock, rfl, -, hv⟩ := Implementation.exists_of_mem_targetsOf htarget
    rw [prior, Std.ExtTreeMap.getD_eq_getD_getElem?, getElem?_predecessors he hv,
      Option.getD_some, count_sources hids hblock, next_eq_targetsOf hids he,
      Implementation.targetsOf, Implementation.block?_of_mem hids hblock, Option.elim_some]
    exact (List.count_filter (List.contains_iff_mem.mpr hv)).symm
  · rw [List.count_eq_zero.mpr hedge, next_eq_targetsOf hids he, List.count_eq_zero.mpr]
    exact mt (mem_prior hids he).mpr hedge

end Edges

namespace Implementation

/-- A reachable block other than the entry is a target of a reachable block. -/
theorem Reachable.exists_source (h : imp.Reachable b) (hne : imp.entry? ≠ some b) :
    ∃ source, imp.Reachable source ∧ b ∈ imp.targetsOf source := by
  obtain ⟨entry, hentry, left, hwalk⟩ := h
  rcases List.eq_nil_or_concat left with rfl | ⟨inner, source, rfl⟩
  · cases hwalk
    exact absurd hentry hne
  · rw [List.concat_eq_append] at hwalk
    obtain ⟨hinner, hlast⟩ := hwalk.of_snoc
    exact ⟨source, ⟨entry, hentry, inner, hinner⟩, hlast⟩

theorem mem_predecessorsOf_iff :
    u ∈ imp.predecessorsOf v ↔ ∃ block ∈ imp.blocks, v ∈ block.successors ∧ block.id = u := by
  rw [predecessorsOf, List.mem_map]
  refine exists_congr fun block ↦ ?_
  rw [List.mem_filter, List.contains_iff_mem, and_assoc]

theorem mem_blocks_recordPredecessors (hids : imp.blockIds.Nodup)
    (h : block ∈ imp.recordPredecessors.blocks) :
    block.id ∈ imp.blockIds ∧ block.predecessors = imp.predecessorsOf block.id := by
  rw [recordPredecessors_eq hids] at h
  obtain ⟨before, hbefore, rfl⟩ := List.mem_map.mp h
  exact ⟨List.mem_map.mpr ⟨before, hbefore, rfl⟩, rfl⟩

/-- What is recorded does not depend on what was stored before. -/
theorem recordPredecessors_mapBlocks (hids : imp.blockIds.Nodup)
    (stored : Block → List BlockId) :
    (imp.mapBlocks fun b ↦ { b with predecessors := stored b }).recordPredecessors =
      imp.recordPredecessors := by
  let f : Block → Block := fun b ↦ { b with predecessors := stored b }
  have hid : ∀ b, (f b).id = b.id := fun _ ↦ rfl
  have hids' : (imp.mapBlocks f).blockIds.Nodup := by rwa [blockIds_mapBlocks hid]
  rw [recordPredecessors_eq hids', recordPredecessors_eq hids,
    predecessorsOf_mapBlocks hid fun _ ↦ rfl, mapBlocks_mapBlocks]
  rfl

/-- After pruning, every block but the entry has a predecessor. -/
theorem predecessorsOf_prune_ne_nil (hb : b ∈ imp.prune.blockIds) (hne : imp.entry? ≠ some b) :
    imp.prune.predecessorsOf b ≠ [] := by
  obtain ⟨source, hsource, hedge⟩ := (mem_blockIds_prune_iff.mp hb).exists_source hne
  rw [← targetsOf_prune hsource] at hedge
  obtain ⟨block, hblock, hid, hnames, -⟩ := exists_of_mem_targetsOf hedge
  exact List.ne_nil_of_mem (mem_predecessorsOf_iff.mpr ⟨block, hblock, hnames, hid⟩)

/-- Recording stores in every block the blocks that name it, once each and in block order, whatever
was stored before. This is the list of the flow graph without its repetitions, and the graph lists
a predecessor as often as it lists the edge among the successors. After pruning only blocks that are
left are stored, and every block but the entry has at least one of them. -/
theorem recorded_predecessors_match (imp : Implementation) (hids : imp.blockIds.Nodup) :
    imp.recordPredecessors = imp.mapBlocks (fun b ↦ { b with
      predecessors := (imp.blocks.filter (·.successors.contains b.id)).map Block.id }) ∧
    (∀ stored : Block → List BlockId,
      (imp.mapBlocks fun b ↦ { b with predecessors := stored b }).recordPredecessors =
        imp.recordPredecessors) ∧
    (∀ b ∈ imp.recordPredecessors.blocks, b.predecessors.Nodup ∧
      ∃ g before, FlowGraph.of? imp = some g ∧ g.predecessors[b.id]? = some before ∧
        b.predecessors = before.eraseDups) ∧
    (∀ g, FlowGraph.of? imp = some g → ∀ u v, (g.prior v).count u = (g.next u).count v) ∧
    ∀ b ∈ imp.prune.recordPredecessors.blocks,
      (imp.prune.entry? ≠ some b.id → b.predecessors ≠ []) ∧
        ∀ u ∈ b.predecessors,
          ∃ survivor ∈ imp.prune.recordPredecessors.blocks, survivor.id = u := by
  refine ⟨recordPredecessors_eq hids, recordPredecessors_mapBlocks hids, fun b hb ↦ ?_,
    fun g hg ↦ ?_, fun b hb ↦ ?_⟩
  · obtain ⟨hin, hstored⟩ := mem_blocks_recordPredecessors hids hb
    obtain ⟨first, hfirst, -⟩ := List.mem_map.mp hin
    obtain ⟨entry, hentry⟩ := exists_entry? (List.ne_nil_of_mem hfirst)
    obtain ⟨g, hg⟩ := FlowGraph.exists_of? hentry
    obtain ⟨e, he, rfl⟩ := Option.map_eq_some_iff.mp hg
    refine ⟨hstored ▸ hids.sublist (List.filter_sublist.map _), _, _, hg,
      Edges.getElem?_predecessors he hin, ?_⟩
    rw [hstored, Edges.eraseDups_sources hids, predecessorsOf]
  · obtain ⟨e, he, rfl⟩ := Option.map_eq_some_iff.mp hg
    exact Edges.count_prior hids he
  · obtain ⟨hin, hstored⟩ := mem_blocks_recordPredecessors (nodup_blockIds_prune hids) hb
    rw [hstored, entry?_prune]
    refine ⟨predecessorsOf_prune_ne_nil hin, fun u hu ↦ ?_⟩
    obtain ⟨block, hblock, -, rfl⟩ := mem_predecessorsOf_iff.mp hu
    rw [recordPredecessors_eq (nodup_blockIds_prune hids)]
    exact ⟨_, List.mem_map_of_mem hblock, rfl⟩

open FlowGraph (recurring) in
theorem recorded_predecessors_match_recurring : recurring.blockIds.Nodup ∧
    (∃ b ∈ recurring.recordPredecessors.blocks, b.id = ⟨1⟩ ∧ b.predecessors.Nodup ∧
      ∃ g before, FlowGraph.of? recurring = some g ∧ g.predecessors[b.id]? = some before ∧
        b.predecessors = before.eraseDups) ∧
    (∃ g, FlowGraph.of? recurring = some g ∧ (g.next ⟨3⟩).count ⟨1⟩ = 2 ∧
      (g.prior ⟨1⟩).count ⟨3⟩ = 2) ∧
    ∃ b ∈ recurring.prune.recordPredecessors.blocks, b.id = ⟨1⟩ ∧
      recurring.prune.entry? ≠ some b.id ∧ b.predecessors ≠ [] := by
  have hids : recurring.blockIds.Nodup := by decide
  have htwice : (FlowGraph.of? recurring).map (fun g ↦ (g.next ⟨3⟩).count ⟨1⟩) = some 2 := by
    decide +kernel
  have hin : ⟨1⟩ ∈ recurring.recordPredecessors.blockIds := by decide +kernel
  have hleft : ⟨1⟩ ∈ recurring.prune.recordPredecessors.blockIds := by decide +kernel
  have hentry : recurring.prune.entry? ≠ some ⟨1⟩ := by decide +kernel
  obtain ⟨-, -, hstored, hcount, hpruned⟩ := recorded_predecessors_match recurring hids
  obtain ⟨g, hg, hnext⟩ := Option.map_eq_some_iff.mp htwice
  obtain ⟨b, hb, hid⟩ := List.mem_map.mp hin
  obtain ⟨d, hd, hid'⟩ := List.mem_map.mp hleft
  rw [← hid'] at hentry
  exact ⟨hids, ⟨b, hb, hid, hstored b hb⟩, ⟨g, hg, hnext, (hcount g hg _ _).trans hnext⟩,
    d, hd, hid', hentry, (hpruned d hd).1 hentry⟩

end Implementation

end OwnershipFlow
