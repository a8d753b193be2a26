import Mathlib.Data.List.Count
import OwnershipFlow.Proofs.Correspondence
import OwnershipFlow.Proofs.NaturalLoops

/-!
# Flow graphs of renamed implementations

Every part of a flow graph can have its blocks renamed: lists member by member, and maps and sets
entry by entry, wherever the new names then stand in their order (`FlowGraph.image`,
`LoopForest.image`).

The flow graph of a renamed implementation is the image of the flow graph of the original
(`of?_eq_image`), and its loops are the image of the loops (`loops_image`), also if the new names
are ordered differently: lists of edges follow the transfers, the search takes the renamed steps,
and immediate dominators and loops are determined by walks. Of a target that is no block nothing is
left in the graph, as the renaming does not turn it into a block.

A copy is a renamed implementation. As long as no counter passes its greatest value it has no point
in common with its source, and its points are linked one to one to the points of the source at the
same places (`copy_isomorphic`).
-/

set_option autoImplicit false
set_option relaxedAutoImplicit false

namespace OwnershipFlow

variable {imp derived : Implementation} {r : BlockId → BlockId} {g : FlowGraph}
  {a b entry : BlockId}

/-! ### Images -/

section Images

variable {β : Type} {f : β → β} {m m' : Std.ExtTreeMap BlockId β} {s : BlockSet}

/-- A map with its keys and its values renamed. -/
def renameMap (r : BlockId → BlockId) (f : β → β) (m : Std.ExtTreeMap BlockId β) :
    Std.ExtTreeMap BlockId β :=
  .ofList (m.toList.map (Prod.map r f))

/-- A set with its members renamed. -/
def renameSet (r : BlockId → BlockId) (s : BlockSet) : BlockSet :=
  .ofList (s.toList.map r)

theorem map_fst_map_toList :
    (m.toList.map (Prod.map r f)).map Prod.fst = m.keys.map r := by
  rw [← Std.ExtTreeMap.map_fst_toList_eq_keys, List.map_map, List.map_map]
  rfl

theorem mem_renameMap_iff : b ∈ renameMap r f m ↔ ∃ a ∈ m, r a = b := by
  rw [renameMap, mem_map_ofList, map_fst_map_toList, List.mem_map]
  simp only [Std.ExtTreeMap.mem_keys]

theorem getElem?_renameMap (hinj : ∀ a ∈ m, ∀ b ∈ m, r a = r b → a = b) {v : β}
    (h : m[a]? = some v) : (renameMap r f m)[r a]? = some (f v) := by
  refine getElem?_map_ofList ?_
    (List.mem_map_of_mem (f := Prod.map r f) (Std.ExtTreeMap.mem_toList_iff_getElem?_eq_some.mpr h))
  rw [map_fst_map_toList]
  refine (nodup_keys_map m).map_on fun x hx y hy ↦ ?_
  exact hinj x (Std.ExtTreeMap.mem_keys.mp hx) y (Std.ExtTreeMap.mem_keys.mp hy)

/-- A map is an image if it has the renamed entries under the renamed keys, and no other keys. -/
theorem eq_renameMap (hinj : ∀ a ∈ m, ∀ b ∈ m, r a = r b → a = b)
    (hentries : ∀ a v, m[a]? = some v → m'[r a]? = some (f v))
    (hkeys : ∀ b ∈ m', ∃ a ∈ m, r a = b) : m' = renameMap r f m := by
  refine Std.ExtTreeMap.ext_getElem? fun {b} ↦ ?_
  by_cases hb : ∃ a ∈ m, r a = b
  · obtain ⟨a, ha, rfl⟩ := hb
    obtain ⟨v, hv⟩ := Option.isSome_iff_exists.mp (Std.ExtTreeMap.mem_iff_isSome_getElem?.mp ha)
    rw [hentries a v hv, getElem?_renameMap hinj hv]
  · rw [Std.ExtTreeMap.getElem?_eq_none (mt (hkeys b) hb),
      Std.ExtTreeMap.getElem?_eq_none (mt mem_renameMap_iff.mp hb)]

theorem mem_renameSet_iff : b ∈ renameSet r s ↔ ∃ a ∈ s, r a = b := by
  rw [renameSet, mem_set_ofList, List.mem_map]
  simp only [Std.ExtTreeSet.mem_toList]

end Images

/-- A flow graph with its blocks renamed. -/
def FlowGraph.image (r : BlockId → BlockId) (g : FlowGraph) : FlowGraph where
  entry := r g.entry
  successors := renameMap r (List.map r) g.successors
  predecessors := renameMap r (List.map r) g.predecessors
  rpo := g.rpo.map r
  retreating := g.retreating.map (Prod.map r r)
  idom := renameMap r r g.idom

attribute [ext] FlowGraph

/-- Loops with their blocks renamed. -/
def LoopForest.image (r : BlockId → BlockId) (l : LoopForest) : LoopForest where
  bodies := renameMap r (renameSet r) l.bodies
  reducible := l.reducible

/-! ### Dominators and loops -/

namespace FlowGraph.Describes

variable {g' : FlowGraph} {next other : BlockId → List BlockId} {blocks : List BlockId}
  (h : g.Describes next entry) (h' : g'.Describes other (r entry))
  (himage : EdgeImage r blocks next other) (hentry : entry ∈ blocks)

include h h' himage hentry

theorem idom_image : g'.idom = renameMap r r g.idom := by
  have hmem : ∀ b ∈ g.idom, b ∈ blocks :=
    fun b hb ↦ himage.mem_of_leads hentry ((h.mem_idom b).mp hb).1
  refine eq_renameMap (fun a ha b hb ↦ himage.inj a (hmem a ha) b (hmem b hb)) (fun b d hd ↦ ?_)
    fun b' hb' ↦ ?_
  · obtain ⟨hb, hd⟩ := h.getElem?_idom_iff.mp hd
    have hin := himage.mem_of_leads hentry (hd.dominates.leads hb)
    exact h'.getElem?_idom_iff.mpr
      ⟨(himage.leads_iff hentry (himage.mem_of_leads hentry hb)).mpr hb,
        (himage.immediatelyDominates_iff hentry hin hb).mpr hd⟩
  · obtain ⟨hleads, hne⟩ := (h'.mem_idom b').mp hb'
    obtain ⟨b, hb, rfl⟩ := himage.exists_of_leads hentry hleads
    exact ⟨b, (h.mem_idom b).mpr ⟨hb, ne_of_apply_ne r hne⟩, rfl⟩

theorem dominates_image (ha : a ∈ blocks) (hb : b ∈ blocks) :
    g'.dominates (r a) (r b) = g.dominates a b := by
  rw [Bool.eq_iff_iff]
  by_cases hleads : Leads next entry b
  · rw [h'.dominates_iff _ _ ((himage.leads_iff hentry hb).mpr hleads), h.dominates_iff _ _ hleads,
      himage.dominates_iff hentry ha hb]
  · rw [h'.dominates_unreachable _ _ (mt (himage.leads_iff hentry hb).mp hleads),
      h.dominates_unreachable _ _ hleads]
    exact ⟨himage.inj a ha b hb, congrArg r⟩

theorem loops_image : g'.loops = g.loops.image r := by
  have hheader : ∀ {b}, b ∈ g.loops.bodies ↔ IsHeader next entry b := by
    intro b
    rw [← h.mem_headers_iff, LoopForest.headers, Std.ExtTreeMap.mem_keys]
  have hmem : ∀ b ∈ g.loops.bodies, b ∈ blocks :=
    fun b hb ↦ himage.mem_of_leads hentry (hheader.mp hb).leads
  have hbodies : g'.loops.bodies = renameMap r (renameSet r) g.loops.bodies := by
    refine eq_renameMap (fun a ha b hb ↦ himage.inj a (hmem a ha) b (hmem b hb))
      (fun header body hbody ↦ ?_) fun header' hheader' ↦ ?_
    · obtain ⟨hheader, hbody⟩ := h.body?_eq_some_iff.mp hbody
      have hin := himage.mem_of_leads hentry hheader.leads
      refine h'.body?_eq_some_iff.mpr ⟨(himage.isHeader_iff hentry hin).mpr hheader, fun b' ↦ ?_⟩
      rw [mem_renameSet_iff, himage.inLoop_image_iff hentry hheader.leads]
      simp only [hbody]
    · rw [← Std.ExtTreeMap.mem_keys, ← LoopForest.headers, h'.mem_headers_iff] at hheader'
      obtain ⟨header, hleads, rfl⟩ := himage.exists_of_leads hentry hheader'.leads
      have hin := himage.mem_of_leads hentry hleads
      exact ⟨header, hheader.mpr ((himage.isHeader_iff hentry hin).mp hheader'), rfl⟩
  have hreducible : g'.loops.reducible = g.loops.reducible := by
    rw [Bool.eq_iff_iff, h'.reducible_iff, h.reducible_iff, himage.headedLoops_iff hentry]
  exact LoopForest.eq_of_body? (fun header ↦ congrArg (·[header]?) hbodies) hreducible

end FlowGraph.Describes

namespace Implementation.Renames

variable (h : Renames r imp derived) (hids : imp.blockIds.Nodup) (hids' : derived.blockIds.Nodup)

include h

/-! ### Edges -/

/-- A block names a target as often as the renamed block names the renamed target. -/
theorem count_successors {block other : Block} (hids' : derived.blockIds.Nodup)
    (hblock : block ∈ imp.blocks) (hsame : block.Renames r other) (ha : a ∈ imp.blockIds) :
    other.successors.count (r a) = block.successors.count a := by
  rw [hsame.successors, List.count, List.countP_map, List.count]
  refine List.countP_congr fun t ht ↦ ?_
  rw [Function.comp, beq_iff_eq, beq_iff_eq]
  exact ⟨h.eq_of_target hids' hblock ht ha, congrArg r⟩

theorem sources_eq (hids' : derived.blockIds.Nodup) (ha : a ∈ imp.blockIds) :
    Edges.sources derived.blocks (r a) = (Edges.sources imp.blocks a).map r := by
  unfold Edges.sources
  rw [List.map_flatMap]
  refine (flatMap_eq_flatMap_of_forall₂ h.blocks fun block hblock other _ hsame ↦ ?_).symm
  rw [List.map_replicate, h.count_successors hids' hblock hsame ha, hsame.id]

/-- A table with an entry for every block of the one implementation is the image of a table of the
other, if its entries are. -/
theorem table_eq {f f' : BlockId → List BlockId} {m m' : Std.ExtTreeMap BlockId (List BlockId)}
    (hids' : derived.blockIds.Nodup) (hmem : ∀ b, b ∈ m ↔ b ∈ imp.blockIds)
    (hmem' : ∀ b, b ∈ m' ↔ b ∈ derived.blockIds) (hm : ∀ b ∈ imp.blockIds, m[b]? = some (f b))
    (hm' : ∀ b ∈ derived.blockIds, m'[b]? = some (f' b))
    (hf : ∀ b ∈ imp.blockIds, f' (r b) = (f b).map r) : m' = renameMap r (List.map r) m := by
  refine eq_renameMap (fun a ha b hb ↦ h.inj hids' ((hmem a).mp ha) ((hmem b).mp hb))
    (fun b targets hb ↦ ?_) fun b hb ↦ ?_
  · have hin : b ∈ imp.blockIds :=
      (hmem b).mp (Std.ExtTreeMap.mem_iff_isSome_getElem?.mpr (by rw [hb]; rfl))
    rw [hm b hin, Option.some.injEq] at hb
    rw [hm' (r b) (h.mem_blockIds hin), hf b hin, hb]
  · rw [hmem', h.blockIds_eq, List.mem_map] at hb
    simp only [hmem]
    exact hb

include hids hids'

/-- The flow graph is the image of that of the original. -/
theorem eq_image {g' : FlowGraph} (hg : FlowGraph.of? imp = some g)
    (hg' : FlowGraph.of? derived = some g') : g' = g.image r := by
  have himage := h.edgeImage hids hids'
  obtain ⟨e, he, rfl⟩ := Option.map_eq_some_iff.mp hg
  obtain ⟨e', he', rfl⟩ := Option.map_eq_some_iff.mp hg'
  have hentry := Edges.entry?_of_of? he
  have hin := entry_mem_blockIds hentry
  have hentry' : e'.entry = r e.entry := by
    have heq := Edges.entry?_of_of? he'
    rw [h.entry?_eq, hentry, Option.map_some, Option.some.injEq] at heq
    exact heq.symm
  have hsearch : (FlowGraph.search e).Mirrors r imp.blockIds (FlowGraph.search e') := by
    rw [FlowGraph.search, FlowGraph.search, hentry']
    refine Search.mirrors_explore ?_ hin (fun b v ↦ Edges.mem_keys_of_mem_next he)
      fun b v ↦ Edges.mem_keys_of_mem_next he'
    rwa [funext (Edges.next_eq_targetsOf hids he), funext (Edges.next_eq_targetsOf hids' he')]
  refine FlowGraph.ext hentry' ?successors ?predecessors hsearch.finished ?retreating ?idom
  case successors =>
    exact h.table_eq hids' (fun b ↦ Edges.mem_successors_iff he)
      (fun b ↦ Edges.mem_successors_iff he') (fun b ↦ Edges.getElem?_successors hids he)
      (fun b ↦ Edges.getElem?_successors hids' he') fun b ↦ himage.next_eq b
  case predecessors =>
    exact h.table_eq hids' (fun b ↦ Edges.mem_predecessors_iff he)
      (fun b ↦ Edges.mem_predecessors_iff he') (fun b ↦ Edges.getElem?_predecessors he)
      (fun b ↦ Edges.getElem?_predecessors he') fun b ↦ h.sources_eq hids'
  case retreating =>
    exact (congrArg List.reverse hsearch.retreating).trans List.map_reverse.symm
  case idom =>
    have hdescribes := FlowGraph.describes_of? hids hg hentry
    have hdescribes' := FlowGraph.describes_of? hids' hg' (Edges.entry?_of_of? he')
    rw [hentry'] at hdescribes'
    exact hdescribes.idom_image hdescribes' himage hin

theorem of?_eq_image : FlowGraph.of? derived = (FlowGraph.of? imp).map (FlowGraph.image r) := by
  have hentry' := h.entry?_eq
  cases hentry : imp.entry? with
  | none =>
    rw [hentry, Option.map_none] at hentry'
    rw [FlowGraph.of?_eq_none hentry, FlowGraph.of?_eq_none hentry', Option.map_none]
  | some entry =>
    rw [hentry, Option.map_some] at hentry'
    obtain ⟨g, hg⟩ := FlowGraph.exists_of? hentry
    obtain ⟨g', hg'⟩ := FlowGraph.exists_of? hentry'
    rw [hg, hg', Option.map_some, h.eq_image hids hids' hg hg']

theorem describes_image (hg : FlowGraph.of? imp = some g) (hentry : imp.entry? = some entry) :
    (g.image r).Describes derived.targetsOf (r entry) := by
  have hg' := h.of?_eq_image hids hids'
  rw [hg, Option.map_some] at hg'
  refine FlowGraph.describes_of? hids' hg' ?_
  rw [h.entry?_eq, hentry, Option.map_some]

end Implementation.Renames

/-! ### Copies -/

/-- The points of a copy are linked one to one to the points of its source, place by place, and none
of them is a point of the source if no counter passes its greatest value while the copy is made.
Commands do the same and blocks carry the same label at the same place in the text; all mentions of
blocks follow the links, and what is no block stays as it is and does not become one. The flow graph
of the copy is the image of that of the source, and so are its loops. -/
theorem Implementation.copy_isomorphic (imp : Implementation) (s : Supply)
    (hids : imp.blockIds.Nodup) (hcommands : (imp.commands.map Command.id).Nodup)
    (hissued : imp.IssuedBy s)
    (hrecorded : ∀ b ∈ imp.blocks, ∀ t ∈ b.predecessors, s.Issued (.block t))
    (hfits : imp.FitsIn s) :
    ∃ derived rest r, imp.copy s = (derived, rest) ∧
      (derived.copyPairs imp).map Prod.fst = derived.nodes ∧ derived.nodes.Nodup ∧
      (derived.copyPairs imp).map Prod.snd = imp.nodes ∧ imp.nodes.Nodup ∧
      (∀ n ∈ derived.nodes, n ∉ imp.nodes) ∧
      (∀ a b, (.block a, .block b) ∈ derived.copyPairs imp ↔ b ∈ imp.blockIds ∧ a = r b) ∧
      (∀ b ∈ imp.blocks, ∀ t ∈ b.successors ++ b.predecessors, t ∉ imp.blockIds →
        r t = t ∧ t ∉ derived.blockIds) ∧
      { derived with id := imp.id, blocks := imp.blocks } = imp ∧
      List.Forall₂ (Block.CopyOf imp derived r) imp.blocks derived.blocks ∧
      derived.blocks.map Block.predecessors = imp.blocks.map (·.predecessors.map r) ∧
      FlowGraph.of? derived = (FlowGraph.of? imp).map (FlowGraph.image r) ∧
      ∀ g, FlowGraph.of? imp = some g →
        (g.image r).postOrder = g.postOrder.map r ∧ (g.image r).loops = g.loops.image r ∧
        ∀ a ∈ imp.blockIds, ∀ b ∈ imp.blockIds,
          (g.image r).dominates (r a) (r b) = g.dominates a b := by
  have hrenames := copy_renames hids hfits hissued.2
  have hids' := nodup_blockIds_copy hids hfits
  have hnodes : imp.nodes.Nodup := nodup_nodes_iff.mpr ⟨hids, hcommands⟩
  have hsources : ((imp.copy s).1.copyPairs imp).map Prod.snd = imp.nodes :=
    List.map_snd_zip hrenames.length_nodes.le
  refine ⟨(imp.copy s).1, (imp.copy s).2, imp.freshName s, rfl,
    List.map_fst_zip hrenames.length_nodes.ge, nodup_nodes_copy hids hfits, hsources, hnodes,
    fun n hn hold ↦ (mem_nodes_copy hids hfits hn).1 (hissued.1 n hold),
    fun a b ↦ block_mem_copyPairs_iff forall₂_copyOf_copy (hsources ▸ hnodes),
    fun b hb t ht hout ↦ ⟨freshName_of_not_mem hout, fun hin ↦ ?_⟩, rfl, forall₂_copyOf_copy,
    predecessors_copyBlocks, hrenames.of?_eq_image hids hids', fun g hg ↦ ?_⟩
  · have hold : s.Issued (.block t) :=
      (List.mem_append.mp ht).elim (hissued.2 b hb t) (hrecorded b hb t)
    exact (mem_nodes_copy hids hfits (block_mem_nodes_iff.mpr hin)).1 hold
  · obtain ⟨e, he, -⟩ := Option.map_eq_some_iff.mp hg
    have hentry := Edges.entry?_of_of? he
    have hdescribes := FlowGraph.describes_of? hids hg hentry
    have hdescribes' := hrenames.describes_image hids hids' hg hentry
    have himage := hrenames.edgeImage hids hids'
    have hin := entry_mem_blockIds hentry
    exact ⟨List.map_reverse.symm, hdescribes.loops_image hdescribes' himage hin,
      fun a ha b hb ↦ hdescribes.dominates_image hdescribes' himage hin ha hb⟩

/-- Blocks that are not listed in the order of their identifiers, with a loop, a target named twice,
and a target and a predecessor on record that are no blocks. -/
def shuffled : Implementation where
  id := ⟨0⟩
  procedure := ⟨0⟩
  name := "shuffled"
  ins := []
  outs := []
  locals := []
  blocks :=
    [⟨⟨7⟩, "entry", [⟨⟨4⟩, .zero, .parCall []⟩], .goto [⟨2⟩, ⟨9⟩, ⟨2⟩], [], .zero⟩,
      ⟨⟨2⟩, "head", [⟨⟨1⟩, .zero, .havoc []⟩, ⟨⟨0⟩, .zero, .parCall []⟩], .goto [⟨5⟩, ⟨1⟩],
        [⟨7⟩, ⟨8⟩, ⟨5⟩], .zero⟩,
      ⟨⟨5⟩, "body", [], .goto [⟨2⟩], [⟨2⟩], .zero⟩,
      ⟨⟨1⟩, "exit", [], .ret, [⟨2⟩], .zero⟩]
  span := .zero

theorem Implementation.copy_isomorphic_shuffled : shuffled.blockIds.Nodup ∧
    (shuffled.commands.map Command.id).Nodup ∧ shuffled.IssuedBy ⟨1, 1, 10, 5⟩ ∧
    (∀ b ∈ shuffled.blocks, ∀ t ∈ b.predecessors, Supply.Issued ⟨1, 1, 10, 5⟩ (.block t)) ∧
    shuffled.FitsIn ⟨1, 1, 10, 5⟩ ∧
    ∃ (derived : Implementation) (rest : Supply) (r : BlockId → BlockId) (g : FlowGraph),
      shuffled.copy ⟨1, 1, 10, 5⟩ = (derived, rest) ∧
      (∀ n ∈ derived.nodes, n ∉ shuffled.nodes) ∧ r ⟨7⟩ = ⟨10⟩ ∧ r ⟨2⟩ = ⟨11⟩ ∧ r ⟨9⟩ = ⟨9⟩ ∧
      ⟨9⟩ ∉ derived.blockIds ∧ FlowGraph.of? derived = some (g.image r) ∧
      g.postOrder = [⟨5⟩, ⟨1⟩, ⟨2⟩, ⟨7⟩] ∧ (g.image r).postOrder = g.postOrder.map r ∧
      g.loops.headers = [⟨2⟩] ∧ (g.image r).loops = g.loops.image r := by
  have hids : shuffled.blockIds.Nodup := by decide
  have hcommands : (shuffled.commands.map Command.id).Nodup := by decide
  have hissued : shuffled.IssuedBy ⟨1, 1, 10, 5⟩ := by decide
  have hrecorded : ∀ b ∈ shuffled.blocks, ∀ t ∈ b.predecessors,
      Supply.Issued ⟨1, 1, 10, 5⟩ (.block t) := by decide
  have hfits : shuffled.FitsIn ⟨1, 1, 10, 5⟩ := by decide
  have hsome : (FlowGraph.of? shuffled).isSome = true := by decide +kernel
  have horder : (FlowGraph.of? shuffled).map (·.postOrder) =
      some [⟨5⟩, ⟨1⟩, ⟨2⟩, ⟨7⟩] := by decide +kernel
  have hheaders : (FlowGraph.of? shuffled).map (·.loops.headers) = some [⟨2⟩] := by decide +kernel
  obtain ⟨derived, rest, r, hcopy, -, -, -, -, hnew, hlinks, hothers, -, -, -, hgraph, hloops⟩ :=
    copy_isomorphic shuffled ⟨1, 1, 10, 5⟩ hids hcommands hissued hrecorded hfits
  obtain rfl : (shuffled.copy ⟨1, 1, 10, 5⟩).1 = derived := congrArg Prod.fst hcopy
  obtain ⟨g, hg⟩ := Option.isSome_iff_exists.mp hsome
  rw [hg, Option.map_some, Option.some.injEq] at horder hheaders
  rw [hg, Option.map_some] at hgraph
  obtain ⟨hpost, hloops, -⟩ := hloops g hg
  obtain ⟨hkept, hout⟩ := hothers _ List.mem_cons_self ⟨9⟩ (by decide) (by decide)
  have hentry := (hlinks ⟨10⟩ ⟨7⟩).mp (by decide +kernel)
  have hhead := (hlinks ⟨11⟩ ⟨2⟩).mp (by decide +kernel)
  exact ⟨hids, hcommands, hissued, hrecorded, hfits, _, rest, r, g, hcopy, hnew, hentry.2.symm,
    hhead.2.symm, hkept, hout, hgraph, horder, hpost, hheaders, hloops⟩

/-- Two blocks, the first of which leads to the second. -/
def paired : Implementation where
  id := ⟨0⟩
  procedure := ⟨0⟩
  name := "paired"
  ins := []
  outs := []
  locals := []
  blocks := [⟨⟨0⟩, "first", [], .goto [⟨1⟩], [], .zero⟩, ⟨⟨1⟩, "second", [], .ret, [⟨0⟩], .zero⟩]
  span := .zero

/-- Where the block counter stands at its greatest value, the second block of a copy gets the number
0, under which the source has a block. -/
theorem Implementation.copy_isomorphic_exhausted : paired.blockIds.Nodup ∧
    (paired.commands.map Command.id).Nodup ∧ paired.IssuedBy ⟨1, 1, 4294967295, 0⟩ ∧
    (∀ b ∈ paired.blocks, ∀ t ∈ b.predecessors,
      Supply.Issued ⟨1, 1, 4294967295, 0⟩ (.block t)) ∧
    (paired.copy ⟨1, 1, 4294967295, 0⟩).1.blockIds = [⟨4294967295⟩, ⟨0⟩] ∧
    ∃ n ∈ (paired.copy ⟨1, 1, 4294967295, 0⟩).1.nodes, n ∈ paired.nodes := by
  refine ⟨by decide, by decide, by decide, by decide, by decide +kernel, .block ⟨0⟩, ?_, by decide⟩
  decide +kernel

end OwnershipFlow
