import OwnershipFlow.FlowGraph
import OwnershipFlow.Proofs.Dominators
import OwnershipFlow.Proofs.Lookup
import OwnershipFlow.Proofs.Search

/-!
# What a flow graph tells about walks

The flow graph of an implementation describes the edges between its blocks
(`FlowGraph.Describes`): its reverse postorder holds exactly the blocks to which the entry leads,
its retreating edges are the edges that do not go forward in that order, its dominator test says
whether every walk from the entry to a block meets another block, and its immediate dominators are
the nearest strict dominators of the reachable blocks. What is shown elsewhere about flow graphs of
distinct blocks is drawn from this description, which says nothing about how a graph is computed.

Where block identifiers are repeated, a block may be recorded as a predecessor without an edge. Then
the reverse postorder still serves the iterations over it (`ordered_of?`).
-/

set_option autoImplicit false
set_option relaxedAutoImplicit false

namespace OwnershipFlow

variable {next : BlockId → List BlockId} {a b u v entry : BlockId}

namespace FlowGraph

/-- A flow graph tells the truth about the walks along given edges. -/
structure Describes (g : FlowGraph) (next : BlockId → List BlockId) (entry : BlockId) : Prop where
  entry_eq : g.entry = entry
  mem_prior : ∀ u v, u ∈ g.prior v ↔ v ∈ next u
  nodup_rpo : g.rpo.Nodup
  head_rpo : g.rpo.head? = some entry
  mem_rpo : ∀ b, b ∈ g.rpo ↔ Leads next entry b
  /-- Every reachable block but the entry has an edge from a block before it. -/
  before : ∀ b ∈ g.rpo, b ≠ entry → ∃ u ∈ g.rpo, b ∈ next u ∧ g.rpo.idxOf u < g.rpo.idxOf b
  mem_retreating : ∀ u v, (u, v) ∈ g.retreating ↔
    Leads next entry u ∧ v ∈ next u ∧ g.rpo.idxOf v ≤ g.rpo.idxOf u
  /-- A retreating edge closes a walk on which no block is met twice. -/
  retreating_walk : ∀ u v, (u, v) ∈ g.retreating →
    ∃ above below, Walk next entry above v ∧ Walk next v below u ∧ (above ++ below ++ [u]).Nodup
  dominates_iff : ∀ a b, Leads next entry b → (g.dominates a b = true ↔ Dominates next entry a b)
  /-- A block that cannot be reached is only dominated by itself. -/
  dominates_unreachable : ∀ a b, ¬ Leads next entry b → (g.dominates a b = true ↔ a = b)
  mem_idom : ∀ b, b ∈ g.idom ↔ Leads next entry b ∧ b ≠ entry
  idom : ∀ b d, g.idom[b]? = some d → ImmediatelyDominates next entry d b

theorem dominates_eq_true {g : FlowGraph} :
    g.dominates a b = true ↔ a = b ∨ a ∈ Dominators.chain g.idom g.idom.size b := by
  rw [dominates, strictDominators, Bool.or_eq_true, decide_eq_true_eq, List.contains_iff_mem]

/-- In reverse postorder the entry comes first, and every other block has a predecessor before it.
For this the predecessors may be more than the edges read backwards. -/
theorem ordered_ofEdges (e : Edges) (hclosed : ∀ b, ∀ v ∈ e.next b, v ∈ e.successors.keys)
    (hprior : ∀ u v, v ∈ e.next u → u ∈ e.prior v) :
    Dominators.Ordered (ofEdges e).rpo e.prior e.entry := by
  have hsearch : Search.Explored e.next e.entry (search e) :=
    Search.explored_explore e.next e.successors.keys e.entry
  have hover : (search e).path = [] := Search.path_explore_eq_nil hclosed
  refine ⟨hsearch.nodup_finished hover, hsearch.head_finished hover, fun b hb hne ↦ ?_⟩
  obtain ⟨u, hu, hedge, hlt⟩ := hsearch.exists_edge_before hover hb hne
  exact ⟨u, hprior u b hedge, hu, hlt⟩

/-- The graph over edges that run between existing blocks, with predecessors to match. -/
theorem describes_ofEdges (e : Edges) (hclosed : ∀ b, ∀ v ∈ e.next b, v ∈ e.successors.keys)
    (hprior : ∀ u v, u ∈ e.prior v ↔ v ∈ e.next u) :
    (ofEdges e).Describes e.next e.entry := by
  have hsearch : Search.Explored e.next e.entry (search e) :=
    Search.explored_explore e.next e.successors.keys e.entry
  have hover : (search e).path = [] := Search.path_explore_eq_nil hclosed
  have hmem : ∀ b, b ∈ (search e).finished ↔ Leads e.next e.entry b :=
    fun b ↦ hsearch.mem_finished_iff hover
  have hretreating : ∀ u v, (u, v) ∈ (ofEdges e).retreating ↔ (u, v) ∈ (search e).retreating :=
    fun u v ↦ List.mem_reverse
  have hordered : Dominators.Ordered (search e).finished e.prior e.entry :=
    ordered_ofEdges e hclosed fun u v ↦ (hprior u v).mpr
  obtain ⟨parents, himmediate, htree, hall, hancestor⟩ := Dominators.exists_parents hordered
    (fun b u ↦ (hprior u b).mp) hmem fun u _ b ↦ (hprior u b).mpr
  have hidom : (ofEdges e).idom = parents.erase e.entry := himmediate
  refine
    { entry_eq := rfl
      mem_prior := hprior
      nodup_rpo := hordered.nodup
      head_rpo := hordered.head
      mem_rpo := hmem
      before := fun b hb hne ↦ hsearch.exists_edge_before hover hb hne
      mem_retreating := fun u v ↦ (hretreating u v).trans (hsearch.mem_retreating_iff hover)
      retreating_walk := fun u v h ↦ (hsearch.retreating u v ((hretreating u v).mp h)).2.2
      dominates_iff := ?_
      dominates_unreachable := ?_
      mem_idom := ?_
      idom := ?_ }
  · intro a b hb
    have hin := (hmem b).mpr hb
    rw [dominates_eq_true, hidom, Dominators.mem_chain_iff hordered.head htree (hall b hin)
      (Dominators.idxOf_le_size hordered.head hordered.nodup hall hin), ← hancestor b hin a]
    constructor
    · rintro (rfl | ⟨-, h⟩)
      · exact .refl a
      · exact h
    · exact fun h ↦ or_iff_not_imp_left.mpr fun hne ↦ ⟨hne, h⟩
  · intro a b hb
    have hnone : (parents.erase e.entry)[b]? = none := by
      rw [getElem?_map_erase]
      split_ifs
      · rfl
      · exact Std.ExtTreeMap.getElem?_eq_none fun h ↦ hb ((hmem b).mp (htree.mem_order b h))
    have hchain : ∀ fuel, Dominators.chain (parents.erase e.entry) fuel b = [] := by
      intro fuel
      cases fuel with
      | zero => rfl
      | succ fuel =>
        rw [Dominators.chain, hnone]
        rfl
    rw [dominates_eq_true, hidom, hchain]
    exact or_iff_left List.not_mem_nil
  · intro b
    rw [hidom, mem_map_erase, and_comm, ← hmem, ne_comm]
    exact and_congr_left fun _ ↦ ⟨htree.mem_order b, hall b⟩
  · intro b d hd
    rw [hidom, getElem?_map_erase] at hd
    split_ifs at hd with hne
    exact Dominators.immediatelyDominates_of_parent htree hancestor (Ne.symm hne) hd

/-- The flow graph of an implementation with distinct block identifiers describes the targets of its
blocks. -/
theorem describes_of? {imp : Implementation} {g : FlowGraph} (hids : imp.blockIds.Nodup)
    (hg : FlowGraph.of? imp = some g) (hentry : imp.entry? = some entry) :
    g.Describes imp.targetsOf entry := by
  obtain ⟨e, he, rfl⟩ := Option.map_eq_some_iff.mp hg
  have hnext : e.next = imp.targetsOf := funext (Edges.next_eq_targetsOf hids he)
  have hentry' : e.entry = entry := by
    rw [Edges.entry?_of_of? he] at hentry
    exact Option.some.inj hentry
  rw [← hnext, ← hentry']
  refine describes_ofEdges e (fun b v ↦ Edges.mem_keys_of_mem_next he) fun u v ↦ ?_
  rw [Edges.mem_prior hids he, hnext]

/-- There is a flow graph exactly if there is an entry. -/
theorem exists_of? {imp : Implementation} (hentry : imp.entry? = some entry) :
    ∃ g, FlowGraph.of? imp = some g := by
  rw [FlowGraph.of?, Edges.of?, hentry]
  exact ⟨_, rfl⟩

theorem of?_eq_none {imp : Implementation} (hentry : imp.entry? = none) :
    FlowGraph.of? imp = none := by
  rw [FlowGraph.of?, Edges.of?, hentry]
  rfl

/-! ### Repeated identifiers -/

section Repeated

variable {imp : Implementation} {g : FlowGraph} (hg : FlowGraph.of? imp = some g)

include hg

/-- The order of blocks serves the iterations also where identifiers are repeated. -/
theorem ordered_of? : Dominators.Ordered g.rpo g.prior g.entry := by
  obtain ⟨e, he, rfl⟩ := Option.map_eq_some_iff.mp hg
  exact ordered_ofEdges e (fun _ _ ↦ Edges.mem_keys_of_mem_next he)
    fun _ _ ↦ Edges.mem_prior_of_mem_next he

/-- The order is made of blocks. -/
theorem exists_block?_of_mem_rpo (hb : b ∈ g.rpo) : ∃ block, imp.block? b = some block := by
  refine Implementation.exists_block? ?_
  obtain ⟨e, he, rfl⟩ := Option.map_eq_some_iff.mp hg
  have hsearch := Search.explored_explore e.next e.successors.keys e.entry
  have hleads := (hsearch.mem_finished_iff
    (Search.path_explore_eq_nil fun _ _ ↦ Edges.mem_keys_of_mem_next he)).mp hb
  refine hleads.induct (Implementation.entry_mem_blockIds (Edges.entry?_of_of? he))
    fun u v _ hedge ↦ ?_
  obtain ⟨-, -, -, -, hv⟩ := Edges.exists_of_mem_next he hedge
  exact hv

theorem idom_eq_immediate : g.idom = Dominators.immediate g.rpo g.prior g.entry := by
  obtain ⟨e, -, rfl⟩ := Option.map_eq_some_iff.mp hg
  rfl

end Repeated

/-- The order of a graph that describes its edges serves the iterations. -/
theorem Describes.ordered {g : FlowGraph} (h : g.Describes next entry) :
    Dominators.Ordered g.rpo g.prior g.entry where
  nodup := h.nodup_rpo
  head := h.entry_eq ▸ h.head_rpo
  earlier b hb hne := by
    obtain ⟨u, hu, hedge, hlt⟩ := h.before b hb (h.entry_eq ▸ hne)
    exact ⟨u, (h.mem_prior u b).mpr hedge, hu, hlt⟩

end FlowGraph

end OwnershipFlow
