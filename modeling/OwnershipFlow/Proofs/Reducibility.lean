import OwnershipFlow.Proofs.NaturalLoops

/-!
# Reducibility of an implementation

The flow graph of an implementation is found to be reducible exactly if every closed walk through
reachable blocks meets a block that dominates the whole walk, and then that block is one of the
loop headers (`reducible_iff_cycles_headed`): on the walk it is entered from a block that it
dominates.

Both sides speak of walks only, so it does not matter in which order a transfer lists its targets,
nor which search tree follows from that order (`Reorders`): the verdict and the headers stay the
same.
-/

set_option autoImplicit false
set_option relaxedAutoImplicit false

namespace OwnershipFlow

variable {imp other : Implementation} {next : BlockId → List BlockId} {left : List BlockId}
  {a v entry start header : BlockId}

/-- A block of a closed walk that dominates the whole walk is a header. -/
theorem isHeader_of_dominates_cycle (hstart : Leads next entry start)
    (hwalk : Walk next start left start) (hin : header ∈ left)
    (hdom : ∀ b ∈ left, Dominates next entry header b) : IsHeader next entry header := by
  obtain ⟨source, hsource, hedge⟩ := hwalk.exists_source hin
  exact ⟨source, hstart.trans (hwalk.leads_of_mem hsource), hedge, hdom source hsource⟩

namespace Implementation

/-! ### The order of targets -/

/-- Another implementation has the same blocks, but its transfers may list their targets in another
order. -/
def Reorders (imp other : Implementation) : Prop :=
  List.Forall₂ (fun b d ↦ d.id = b.id ∧ d.successors.Perm b.successors) imp.blocks other.blocks

namespace Reorders

variable (h : imp.Reorders other)

include h

theorem symm : other.Reorders imp :=
  h.flip.imp fun _ _ hsame ↦ ⟨hsame.1.symm, hsame.2.symm⟩

theorem blockIds_eq : other.blockIds = imp.blockIds :=
  (map_eq_map_of_forall₂ h fun _ _ hsame ↦ hsame.1.symm).symm

theorem entry?_eq : other.entry? = imp.entry? := by
  rw [entry?_eq_head?_blockIds, entry?_eq_head?_blockIds, h.blockIds_eq]

theorem nodup_blockIds (hids : imp.blockIds.Nodup) : other.blockIds.Nodup := by
  rwa [h.blockIds_eq]

theorem mem_targetsOf (hids : imp.blockIds.Nodup) (hv : v ∈ imp.targetsOf a) :
    v ∈ other.targetsOf a := by
  obtain ⟨b, hb, rfl, htarget, hexists⟩ := exists_of_mem_targetsOf hv
  obtain ⟨d, hd, hid, hperm⟩ := exists_of_forall₂ h hb
  rw [← hid, Implementation.mem_targetsOf (h.nodup_blockIds hids) hd, h.blockIds_eq]
  exact ⟨hperm.mem_iff.mpr htarget, hexists⟩

theorem mem_targetsOf_iff (hids : imp.blockIds.Nodup) :
    v ∈ other.targetsOf a ↔ v ∈ imp.targetsOf a :=
  ⟨h.symm.mem_targetsOf (h.nodup_blockIds hids), h.mem_targetsOf hids⟩

/-- Graphs that differ in the order of targets get the same verdict and have the same headers. -/
theorem loops_eq {g g' : FlowGraph} (hids : imp.blockIds.Nodup) (hg : FlowGraph.of? imp = some g)
    (hg' : FlowGraph.of? other = some g') (hentry : imp.entry? = some entry) :
    g'.loops.reducible = g.loops.reducible ∧ g'.loops.headers = g.loops.headers := by
  have hdescribes := FlowGraph.describes_of? hids hg hentry
  have hdescribes' := FlowGraph.describes_of? (h.nodup_blockIds hids) hg' (h.entry?_eq.trans hentry)
  have hloops : g'.loops = g.loops :=
    hdescribes.loops_eq_of_agree hdescribes' fun b _ v ↦ h.mem_targetsOf_iff hids
  exact ⟨congrArg LoopForest.reducible hloops, congrArg LoopForest.headers hloops⟩

end Reorders

end Implementation

namespace FlowGraph

/-- Headers are listed in ascending order. -/
theorem pairwise_headers (l : LoopForest) :
    l.headers.Pairwise fun a b ↦ a.index < b.index :=
  l.bodies.ordered_keys.imp Ident.compare_eq_lt_iff.mp

/-- A flow graph is reducible exactly if every closed walk through reachable blocks meets a block
that dominates the whole walk, and that block is then a header. Whether it is or not, the headers
are, in ascending order, the reachable blocks that dominate the source of an edge to them. None of
this depends on the order in which transfers list their targets. -/
theorem reducible_iff_cycles_headed (imp : Implementation) (hids : imp.blockIds.Nodup)
    (hblocks : imp.blocks ≠ []) :
    ∃ g, FlowGraph.of? imp = some g ∧
      (g.loops.reducible = true ↔
        ∀ start left, imp.Reachable start → Walk imp.targetsOf start left start → left ≠ [] →
          ∃ header ∈ left, ∀ b ∈ left, imp.Dominates header b) ∧
      (g.loops.reducible = true →
        ∀ start left, imp.Reachable start → Walk imp.targetsOf start left start → left ≠ [] →
          ∃ header ∈ left, header ∈ g.loops.headers ∧ ∀ b ∈ left, imp.Dominates header b) ∧
      (g.loops.headers.Pairwise fun a b ↦ a.index < b.index) ∧
      (∀ header, header ∈ g.loops.headers ↔ imp.Reachable header ∧
        ∃ source, imp.Reachable source ∧ header ∈ imp.targetsOf source ∧
          imp.Dominates header source) ∧
      ∀ other g', imp.Reorders other → FlowGraph.of? other = some g' →
        g'.loops.reducible = g.loops.reducible ∧ g'.loops.headers = g.loops.headers := by
  obtain ⟨entry, hentry⟩ :=
    Option.ne_none_iff_exists'.mp (mt Implementation.entry?_eq_none_iff.mp hblocks)
  obtain ⟨g, hg⟩ := exists_of? hentry
  have hdescribes := describes_of? hids hg hentry
  simp only [Implementation.reachable_iff hentry, Implementation.dominates_iff hentry]
  refine ⟨g, hg, hdescribes.reducible_iff, fun hreducible start left hstart hwalk hne ↦ ?_,
    pairwise_headers g.loops, fun header ↦ ?_, fun other g' hother hg' ↦ ?_⟩
  · obtain ⟨header, hin, hdom⟩ := hdescribes.reducible_iff.mp hreducible start left hstart hwalk hne
    have hheader := isHeader_of_dominates_cycle hstart hwalk hin hdom
    exact ⟨header, hin, hdescribes.mem_headers_iff.mpr hheader, hdom⟩
  · rw [hdescribes.mem_headers_iff]
    constructor
    · rintro ⟨source, hsource, hedge, hdom⟩
      exact ⟨hsource.step hedge, source, hsource, hedge, hdom⟩
    · exact fun ⟨_, hheader⟩ ↦ hheader
  · exact hother.loops_eq hids hg hg' hentry

/-- A loop within a loop, entered at its header only. -/
def nested : Implementation where
  id := ⟨0⟩
  procedure := ⟨0⟩
  name := "nested"
  ins := []
  outs := []
  locals := []
  blocks :=
    [⟨⟨0⟩, "entry", [], .goto [⟨2⟩], [], .zero⟩,
      ⟨⟨2⟩, "outer", [], .goto [⟨1⟩, ⟨3⟩], [], .zero⟩,
      ⟨⟨1⟩, "inner", [], .goto [⟨1⟩, ⟨2⟩], [], .zero⟩,
      ⟨⟨3⟩, "exit", [], .ret, [], .zero⟩]
  span := .zero

theorem reducible_iff_cycles_headed_nested : nested.blockIds.Nodup ∧ nested.blocks ≠ [] ∧
    ∃ g, FlowGraph.of? nested = some g ∧ g.loops.reducible = true ∧
      g.loops.headers = [⟨1⟩, ⟨2⟩] ∧
      ∀ start left, nested.Reachable start → Walk nested.targetsOf start left start → left ≠ [] →
        ∃ header ∈ left, header ∈ g.loops.headers ∧ ∀ b ∈ left, nested.Dominates header b := by
  have hreducible : (FlowGraph.of? nested).map (·.loops.reducible) = some true := by decide +kernel
  have hheaders : (FlowGraph.of? nested).map (·.loops.headers) = some [⟨1⟩, ⟨2⟩] := by
    decide +kernel
  obtain ⟨g, hg, -, hcycles, -⟩ :=
    reducible_iff_cycles_headed nested (by decide) (List.cons_ne_nil _ _)
  rw [hg, Option.map_some, Option.some.injEq] at hreducible hheaders
  exact ⟨by decide, List.cons_ne_nil _ _, g, hg, hreducible, hheaders, hcycles hreducible⟩

end FlowGraph

end OwnershipFlow
