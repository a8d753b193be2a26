import OwnershipFlow.Proofs.NaturalLoops

/-!
# What pruning leaves of a flow graph

Pruning keeps the reachable blocks as they are and in their order, and nothing else. The flow graph
of the pruned implementation does not show that anything is missing (`prune_invisible`): its search
takes the same course, since a search does not look at edges out of its reach (`search_prune`), and
immediate dominators and loops follow the edges where the entry leads. Only the lists of
predecessors become shorter, by the blocks that cannot be reached (`sources_filter`), and no
analysis has counted these.
-/

set_option autoImplicit false
set_option relaxedAutoImplicit false

namespace OwnershipFlow

variable {imp : Implementation} {g g' : FlowGraph} {e e' : Edges} {b target entry : BlockId}

/-- Leaving out blocks leaves them out of the predecessors. -/
theorem Edges.sources_filter {blocks : List Block} {p : BlockId → Bool} :
    sources (blocks.filter (p ·.id)) target = (sources blocks target).filter p := by
  induction blocks with
  | nil => rfl
  | cons b rest ih =>
    unfold sources at ih ⊢
    rw [List.flatMap_cons, List.filter_append, List.filter_replicate, ← ih]
    by_cases hb : p b.id = true
    · rw [List.filter_cons, if_pos hb, if_pos hb, List.flatMap_cons]
    · rw [List.filter_cons, if_neg hb, if_neg hb, List.nil_append]

namespace Implementation

/-- The blocks that pruning removes are those that cannot be reached. -/
theorem unreachableCount_eq (imp : Implementation) :
    imp.unreachableCount = imp.blocks.countP (¬ imp.Reachable ·.id) := by
  have hcount := List.length_eq_countP_add_countP (fun b : Block ↦ decide (imp.Reachable b.id))
    (l := imp.blocks)
  rw [unreachableCount, blocks_prune, ← List.countP_eq_length_filter]
  simp only [decide_eq_true_eq] at hcount
  omega

end Implementation

namespace FlowGraph

/-- The search takes the same course where blocks out of its reach are missing. -/
theorem search_prune (hids : imp.blockIds.Nodup) (he : Edges.of? imp = some e)
    (he' : Edges.of? imp.prune = some e') : search e' = search e := by
  have hids' := Implementation.nodup_blockIds_prune hids
  have hentry := Edges.entry?_of_of? he
  have hentry' : e'.entry = e.entry := by
    have h := (Edges.entry?_of_of? he').symm.trans ((Implementation.entry?_prune imp).trans hentry)
    exact Option.some.inj h
  rw [search, search, hentry']
  refine Search.explore_congr (fun b v ↦ Edges.mem_keys_of_mem_next he)
    (fun b v ↦ Edges.mem_keys_of_mem_next he') fun b hb ↦ ?_
  rw [funext (Edges.next_eq_targetsOf hids he)] at hb
  rw [Edges.next_eq_targetsOf hids he, Edges.next_eq_targetsOf hids' he',
    Implementation.targetsOf_prune ((Implementation.reachable_iff hentry).mpr hb)]

/-- Pruning keeps the reachable blocks with all their contents and in their order, the entry first,
and removes the others; there is nothing left to prune then. The flow graph keeps its entry, its
orders, its immediate dominators and its loops, and the successors of reachable blocks. The lists of
their predecessors lose the blocks that cannot be reached. -/
theorem prune_invisible (imp : Implementation) (hids : imp.blockIds.Nodup) :
    imp.prune = { imp with blocks := imp.blocks.filter (imp.Reachable ·.id) } ∧
    imp.prune.blocks.head? = imp.blocks.head? ∧
    imp.unreachableCount = imp.blocks.countP (¬ imp.Reachable ·.id) ∧
    imp.prune.prune = imp.prune ∧ imp.prune.unreachableCount = 0 ∧
    (FlowGraph.of? imp.prune).isSome = (FlowGraph.of? imp).isSome ∧
    ∀ g g', FlowGraph.of? imp = some g → FlowGraph.of? imp.prune = some g' →
      g'.entry = g.entry ∧ g'.postOrder = g.postOrder ∧ g'.rpo = g.rpo ∧ g'.idom = g.idom ∧
      g'.loops.headers = g.loops.headers ∧
      (∀ header, g'.loops.body? header = g.loops.body? header) ∧
      g'.loops.reducible = g.loops.reducible ∧
      ∀ b, imp.Reachable b →
        (∃ targets, g.successors[b]? = some targets ∧ g'.successors[b]? = some targets) ∧
        ∃ before, g.predecessors[b]? = some before ∧
          g'.predecessors[b]? = some (before.filter (imp.Reachable ·)) := by
  refine ⟨Implementation.prune_eq imp, Implementation.head?_blocks_prune imp,
    Implementation.unreachableCount_eq imp, Implementation.prune_prune, ?_, ?_,
    fun g g' hg hg' ↦ ?_⟩
  · rw [Implementation.unreachableCount, Implementation.prune_prune, Nat.sub_self]
  · rw [FlowGraph.of?, FlowGraph.of?, Edges.of?, Edges.of?, Implementation.entry?_prune]
    simp only [Option.isSome_map]
  · have hids' := Implementation.nodup_blockIds_prune hids
    obtain ⟨e, he, heg⟩ := Option.map_eq_some_iff.mp hg
    obtain ⟨e', he', heg'⟩ := Option.map_eq_some_iff.mp hg'
    have hentry := Edges.entry?_of_of? he
    have hentry' := (Implementation.entry?_prune imp).trans hentry
    have hdescribes := describes_of? hids hg hentry
    have hdescribes' := describes_of? hids' hg' hentry'
    have hagree := Implementation.mem_targetsOf_prune_iff hentry
    have hloops := hdescribes.loops_eq_of_agree hdescribes' hagree
    have hrpo : g'.rpo = g.rpo := by
      rw [← heg, ← heg']
      exact congrArg Search.finished (search_prune hids he he')
    refine ⟨hdescribes'.entry_eq.trans hdescribes.entry_eq.symm, congrArg List.reverse hrpo, hrpo,
      hdescribes.idom_eq_of_agree hdescribes' hagree, congrArg LoopForest.headers hloops,
      fun header ↦ congrArg (LoopForest.body? · header) hloops,
      congrArg LoopForest.reducible hloops, fun b hb ↦ ?_⟩
    have hin := hb.mem_blockIds
    have hin' := Implementation.mem_blockIds_prune_iff.mpr hb
    subst heg heg'
    refine ⟨⟨_, Edges.getElem?_successors hids he hin, ?_⟩,
      _, Edges.getElem?_predecessors he hin, ?_⟩
    · exact (Edges.getElem?_successors hids' he' hin').trans
        (congrArg some (Implementation.targetsOf_prune hb))
    · refine (Edges.getElem?_predecessors he' hin').trans ?_
      rw [Implementation.blocks_prune]
      exact congrArg some (Edges.sources_filter (p := fun b ↦ decide (imp.Reachable b)))

theorem prune_invisible_intertwined : intertwined.blockIds.Nodup ∧
    (FlowGraph.of? intertwined.prune).isSome = true ∧ intertwined.unreachableCount = 1 ∧
    ∃ g g', FlowGraph.of? intertwined = some g ∧ FlowGraph.of? intertwined.prune = some g' ∧
      g'.rpo = g.rpo ∧ g'.idom = g.idom ∧ g'.loops.headers = g.loops.headers ∧
      g.predecessors[(⟨3⟩ : BlockId)]? = some [⟨2⟩, ⟨8⟩] ∧
      g'.predecessors[(⟨3⟩ : BlockId)]? = some [⟨2⟩] := by
  have hids : intertwined.blockIds.Nodup := by decide
  have hsome : (FlowGraph.of? intertwined).isSome = true := by decide +kernel
  have hcount : intertwined.blocks.countP (¬ intertwined.Reachable ·.id) = 1 := by decide +kernel
  have hbefore : (FlowGraph.of? intertwined).map (·.predecessors[(⟨3⟩ : BlockId)]?) =
      some (some [⟨2⟩, ⟨8⟩]) := by decide +kernel
  have hreach : intertwined.Reachable ⟨3⟩ := by decide +kernel
  have hkept : [(⟨2⟩ : BlockId), ⟨8⟩].filter (intertwined.Reachable ·) = [⟨2⟩] := by decide +kernel
  obtain ⟨-, -, hremoved, -, -, hsome', hgraphs⟩ := prune_invisible intertwined hids
  rw [hsome] at hsome'
  obtain ⟨g, hg⟩ := Option.isSome_iff_exists.mp hsome
  obtain ⟨g', hg'⟩ := Option.isSome_iff_exists.mp hsome'
  rw [hg, Option.map_some, Option.some.injEq] at hbefore
  obtain ⟨-, -, hrpo, hidom, hheaders, -, -, hblocks⟩ := hgraphs g g' hg hg'
  obtain ⟨-, before, hbefore', hafter⟩ := hblocks ⟨3⟩ hreach
  rw [hbefore, Option.some.injEq] at hbefore'
  rw [← hbefore', hkept] at hafter
  exact ⟨hids, hsome', hremoved.trans hcount, g, g', hg, hg', hrpo, hidom, hheaders, hbefore,
    hafter⟩

end FlowGraph

end OwnershipFlow
