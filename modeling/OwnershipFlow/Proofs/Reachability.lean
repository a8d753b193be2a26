import OwnershipFlow.Proofs.Lookup
import OwnershipFlow.Proofs.Search

/-!
# Reachable blocks

A block of an implementation is reachable if transfers lead to it from the entry, through targets
that exist (`Implementation.Reachable`). The search finds exactly these blocks
(`mem_reachableFrom_iff`), so pruning keeps the reachable blocks in their order (`blocks_prune`),
and where the entry leads, the pruned implementation has the same targets (`targetsOf_prune`). So
pruning once more changes nothing (`prune_prune`).

Changes to blocks that keep identifiers and transfers keep all of this (`targetsOf_mapBlocks`),
and can be made before or after pruning (`prune_mapBlocks`).
-/

set_option autoImplicit false
set_option relaxedAutoImplicit false

namespace OwnershipFlow.Implementation

variable {imp : Implementation} {a b c entry : BlockId}

/-- Transfers lead from the entry to a block. -/
def Reachable (imp : Implementation) (b : BlockId) : Prop :=
  ∃ entry, imp.entry? = some entry ∧ Leads imp.targetsOf entry b

theorem mem_reachableFrom_iff : b ∈ imp.reachableFrom a ↔ Leads imp.targetsOf a b :=
  (Search.explored_explore imp.targetsOf imp.blockIds a).mem_visited_iff
    (Search.path_explore_eq_nil fun _ _ ↦ mem_blockIds_of_mem_targetsOf)

theorem reachable_iff (hentry : imp.entry? = some entry) :
    imp.Reachable b ↔ Leads imp.targetsOf entry b := by
  rw [Reachable, hentry]
  constructor
  · rintro ⟨_, heq, h⟩
    exact Option.some.inj heq ▸ h
  · exact fun h ↦ ⟨entry, rfl, h⟩

theorem not_reachable (hentry : imp.entry? = none) : ¬ imp.Reachable b := by
  rintro ⟨entry, heq, -⟩
  rw [hentry] at heq
  cases heq

instance (imp : Implementation) : DecidablePred imp.Reachable := fun b ↦
  decidable_of_iff (∃ entry ∈ imp.entry?, b ∈ imp.reachableFrom entry) <| by
    refine exists_congr fun entry ↦ and_congr_right fun _ ↦ ?_
    exact mem_reachableFrom_iff

theorem entry?_eq_head?_blockIds : imp.entry? = imp.blockIds.head? :=
  List.head?_map.symm

theorem entry?_eq_none_iff : imp.entry? = none ↔ imp.blocks = [] := by
  unfold entry?
  rw [Option.map_eq_none_iff, List.head?_eq_none_iff]

/-- An implementation with blocks has an entry. -/
theorem exists_entry? (hblocks : imp.blocks ≠ []) : ∃ entry, imp.entry? = some entry :=
  Option.ne_none_iff_exists'.mp (mt entry?_eq_none_iff.mp hblocks)

/-- Reachable blocks exist. -/
theorem Reachable.mem_blockIds (h : imp.Reachable b) : b ∈ imp.blockIds := by
  obtain ⟨entry, hentry, hleads⟩ := h
  exact hleads.induct (entry_mem_blockIds hentry) fun _ _ _ ↦ mem_blockIds_of_mem_targetsOf

theorem Reachable.step (h : imp.Reachable a) (edge : b ∈ imp.targetsOf a) : imp.Reachable b := by
  obtain ⟨entry, hentry, hleads⟩ := h
  exact ⟨entry, hentry, hleads.step edge⟩

theorem reachable_entry (hentry : imp.entry? = some entry) : imp.Reachable entry :=
  ⟨entry, hentry, .refl entry⟩

theorem Reachable.of_mem_walk {left : List BlockId} (h : imp.Reachable a)
    (hwalk : Walk imp.targetsOf a left b) (hc : c ∈ left) : imp.Reachable c := by
  obtain ⟨entry, hentry, hleads⟩ := h
  exact ⟨entry, hentry, hleads.trans (hwalk.leads_of_mem hc)⟩

/-! ### Dominance -/

/-- Every walk from the entry to a block meets another block. -/
def Dominates (imp : Implementation) (a b : BlockId) : Prop :=
  ∀ entry, imp.entry? = some entry → OwnershipFlow.Dominates imp.targetsOf entry a b

/-- A block that dominates the source of an edge to it. -/
def IsHeader (imp : Implementation) (header : BlockId) : Prop :=
  ∃ source ∈ imp.blockIds, imp.Reachable source ∧ header ∈ imp.targetsOf source ∧
    imp.Dominates header source

theorem dominates_iff (hentry : imp.entry? = some entry) :
    imp.Dominates a b ↔ OwnershipFlow.Dominates imp.targetsOf entry a b := by
  rw [Dominates, hentry]
  constructor
  · exact fun h ↦ h entry rfl
  · intro h _ heq
    exact Option.some.inj heq ▸ h

theorem isHeader_iff (hentry : imp.entry? = some entry) :
    imp.IsHeader a ↔ OwnershipFlow.IsHeader imp.targetsOf entry a := by
  refine exists_congr fun source ↦ ?_
  rw [dominates_iff hentry, reachable_iff hentry]
  refine and_iff_right_of_imp fun h ↦ ?_
  exact Reachable.mem_blockIds ⟨entry, hentry, h.1⟩

theorem IsHeader.reachable (h : imp.IsHeader a) : imp.Reachable a := by
  obtain ⟨source, -, hreach, hedge, -⟩ := h
  exact hreach.step hedge

/-- The blocks to which transfers lead from a given block without going to another one. -/
def reachableAvoiding (imp : Implementation) (a b : BlockId) : BlockSet :=
  (Search.explore (avoiding imp.targetsOf a) imp.blockIds b (avoiding imp.targetsOf a b)).visited

theorem mem_reachableAvoiding_iff :
    c ∈ imp.reachableAvoiding a b ↔ Leads (avoiding imp.targetsOf a) b c :=
  (Search.explored_explore (avoiding imp.targetsOf a) imp.blockIds b).mem_visited_iff
    (Search.path_explore_eq_nil fun _ _ h ↦ mem_blockIds_of_mem_targetsOf (List.mem_filter.mp h).1)

instance (imp : Implementation) : DecidableRel imp.Dominates := fun a b ↦
  decidable_of_iff
    (∀ entry ∈ imp.entry?, a = entry ∨ a = b ∨ b ∉ imp.reachableAvoiding a entry) <| by
    refine forall_congr' fun entry ↦ imp_congr_right fun _ ↦ ?_
    rw [dominates_iff_avoiding, mem_reachableAvoiding_iff]

instance (imp : Implementation) : DecidablePred imp.IsHeader := fun header ↦
  inferInstanceAs (Decidable (∃ source ∈ imp.blockIds, imp.Reachable source ∧
    header ∈ imp.targetsOf source ∧ imp.Dominates header source))

/-! ### Changes to blocks -/

/-- Changes every block. -/
def mapBlocks (imp : Implementation) (f : Block → Block) : Implementation :=
  { imp with blocks := imp.blocks.map f }

theorem mapBlocks_mapBlocks {f g : Block → Block} :
    (imp.mapBlocks f).mapBlocks g = imp.mapBlocks (g ∘ f) := by
  rw [mapBlocks, mapBlocks, List.map_map, mapBlocks]

/-- Where identifiers are distinct, a change of the first block that carries one is a change of
every block that carries it. -/
theorem modifyBlock_eq_mapBlocks {f : Block → Block} (hids : imp.blockIds.Nodup) :
    imp.modifyBlock a f = imp.mapBlocks fun b ↦ if b.id = a then f b else b := by
  suffices h : ∀ blocks : List Block, (blocks.map Block.id).Nodup →
      modifyFirst a f blocks = blocks.map fun b ↦ if b.id = a then f b else b from
    congrArg (fun blocks ↦ { imp with blocks }) (h imp.blocks hids)
  intro blocks hids
  induction blocks with
  | nil => rfl
  | cons b rest ih =>
    rw [List.map_cons, List.nodup_cons] at hids
    rw [modifyFirst, List.map_cons]
    split_ifs with hb
    · have hrest : ∀ c ∈ rest, (if c.id = a then f c else c) = c := by
        intro c hc
        refine if_neg fun hca ↦ hids.1 ?_
        rw [hb, ← hca]
        exact List.mem_map_of_mem hc
      rw [List.map_congr_left hrest, List.map_id']
    · rw [ih hids.2]

section Map

variable {f : Block → Block} (hid : ∀ b, (f b).id = b.id)

include hid

theorem blockIds_mapBlocks : (imp.mapBlocks f).blockIds = imp.blockIds := by
  rw [blockIds, mapBlocks, List.map_map]
  exact List.map_congr_left fun b _ ↦ hid b

theorem entry?_mapBlocks : entry? (imp.mapBlocks f) = imp.entry? := by
  unfold entry?
  rw [mapBlocks, List.head?_map, Option.map_map]
  exact congrArg (Option.map · _) (funext hid)

theorem block?_mapBlocks : (imp.mapBlocks f).block? b = (imp.block? b).map f := by
  rw [block?, mapBlocks, List.find?_map, block?]
  refine congrArg (Option.map f) (congrArg (List.find? · _) (funext fun block ↦ ?_))
  exact congrArg (decide <| · = b) (hid block)

variable (htransfer : ∀ b, (f b).transfer = b.transfer)

include htransfer

/-- Changes that keep identifiers and transfers keep the targets of blocks. -/
theorem targetsOf_mapBlocks : (imp.mapBlocks f).targetsOf = imp.targetsOf := by
  ext1 b
  rw [targetsOf, targetsOf, blockIds_mapBlocks hid, block?_mapBlocks hid]
  cases imp.block? b with
  | none => rfl
  | some block => exact congrArg (List.filter _) (congrArg Transfer.targets (htransfer block))

theorem reachable_mapBlocks : (imp.mapBlocks f).Reachable b ↔ imp.Reachable b := by
  rw [Reachable, entry?_mapBlocks hid, targetsOf_mapBlocks hid htransfer, Reachable]

theorem isHeader_mapBlocks_iff : (imp.mapBlocks f).IsHeader b ↔ imp.IsHeader b := by
  unfold IsHeader Reachable Dominates
  rw [blockIds_mapBlocks hid, entry?_mapBlocks hid, targetsOf_mapBlocks hid htransfer]

end Map

/-! ### Pruning -/

/-- Pruning keeps the reachable blocks. -/
theorem prune_eq (imp : Implementation) :
    imp.prune = { imp with blocks := imp.blocks.filter (imp.Reachable ·.id) } := by
  cases hentry : imp.entry? with
  | none =>
    have hblocks := entry?_eq_none_iff.mp hentry
    rw [prune, hentry, hblocks, List.filter_nil, ← hblocks]
  | some entry =>
    rw [prune, hentry]
    refine congrArg (fun blocks ↦ { imp with blocks }) (List.filter_congr fun block _ ↦ ?_)
    rw [decide_eq_decide, mem_reachableFrom_iff, reachable_iff hentry]

theorem blocks_prune (imp : Implementation) :
    imp.prune.blocks = imp.blocks.filter (imp.Reachable ·.id) :=
  congrArg blocks (prune_eq imp)

theorem mem_blocks_prune_iff {block : Block} :
    block ∈ imp.prune.blocks ↔ block ∈ imp.blocks ∧ imp.Reachable block.id := by
  rw [blocks_prune, List.mem_filter, decide_eq_true_iff]

theorem mapBlocks_prune {f : Block → Block} : imp.prune.mapBlocks f =
    { imp with blocks := (imp.blocks.filter (imp.Reachable ·.id)).map f } := by
  rw [mapBlocks, prune_eq]

/-- Changes that keep identifiers and transfers can be made before or after pruning. -/
theorem prune_mapBlocks {f : Block → Block} (hid : ∀ b, (f b).id = b.id)
    (htransfer : ∀ b, (f b).transfer = b.transfer) :
    (imp.mapBlocks f).prune = imp.prune.mapBlocks f := by
  have hblocks : (imp.mapBlocks f).blocks.filter ((imp.mapBlocks f).Reachable ·.id) =
      (imp.blocks.filter (imp.Reachable ·.id)).map f := by
    rw [mapBlocks, List.filter_map]
    refine congrArg (List.map f) (List.filter_congr fun b _ ↦ ?_)
    exact decide_eq_decide.mpr (hid b ▸ reachable_mapBlocks hid htransfer)
  rw [prune_eq, prune_eq, hblocks, mapBlocks, mapBlocks]

theorem mem_blockIds_prune_iff : b ∈ imp.prune.blockIds ↔ imp.Reachable b := by
  rw [blockIds, blocks_prune]
  constructor
  · intro h
    obtain ⟨block, hblock, rfl⟩ := List.mem_map.mp h
    exact of_decide_eq_true (List.mem_filter.mp hblock).2
  · intro h
    obtain ⟨block, hblock, rfl⟩ := List.mem_map.mp h.mem_blockIds
    exact List.mem_map_of_mem (List.mem_filter.mpr ⟨hblock, decide_eq_true h⟩)

theorem nodup_blockIds_prune (hids : imp.blockIds.Nodup) : imp.prune.blockIds.Nodup := by
  rw [blockIds, blocks_prune]
  exact hids.sublist (List.filter_sublist.map _)

/-- Pruning keeps the first block. -/
theorem head?_blocks_prune (imp : Implementation) :
    imp.prune.blocks.head? = imp.blocks.head? := by
  rw [blocks_prune]
  cases hblocks : imp.blocks with
  | nil => rfl
  | cons first rest =>
    have hentry : imp.entry? = some first.id := by
      unfold entry?
      rw [hblocks]
      rfl
    have hfirst : imp.Reachable first.id := reachable_entry hentry
    rw [List.filter_cons, if_pos (decide_eq_true hfirst)]
    rfl

theorem entry?_prune (imp : Implementation) : imp.prune.entry? = imp.entry? :=
  congrArg (Option.map Block.id) (head?_blocks_prune imp)

theorem block?_prune (h : imp.Reachable b) : imp.prune.block? b = imp.block? b := by
  rw [block?, blocks_prune, List.find?_filter, block?]
  refine congrFun (congrArg _ (funext fun block ↦ ?_)) _
  rw [decide_eq_decide, decide_eq_true_iff, decide_eq_true_iff]
  exact and_iff_right_of_imp fun hid ↦ hid ▸ h

/-- A reachable block keeps its targets. -/
theorem targetsOf_prune (h : imp.Reachable b) : imp.prune.targetsOf b = imp.targetsOf b := by
  rw [targetsOf, targetsOf, block?_prune h]
  refine List.filter_congr fun v hv ↦ ?_
  rw [Bool.eq_iff_iff, List.contains_iff_mem, List.contains_iff_mem, mem_blockIds_prune_iff]
  refine ⟨Reachable.mem_blockIds, fun hin ↦ h.step ?_⟩
  exact List.mem_filter.mpr ⟨hv, List.contains_iff_mem.mpr hin⟩

/-- Pruning changes no targets where the entry leads. -/
theorem mem_targetsOf_prune_iff (hentry : imp.entry? = some entry) :
    ∀ b, Leads imp.targetsOf entry b → ∀ v, v ∈ imp.prune.targetsOf b ↔ v ∈ imp.targetsOf b := by
  intro b hb v
  rw [targetsOf_prune ((reachable_iff hentry).mpr hb)]

theorem reachable_prune_iff : imp.prune.Reachable b ↔ imp.Reachable b := by
  unfold Reachable
  rw [entry?_prune]
  exact exists_congr fun entry ↦ and_congr_right fun hentry ↦
    leads_iff_of_agree (mem_targetsOf_prune_iff hentry)

/-- After pruning there is nothing left to prune. -/
theorem prune_prune : imp.prune.prune = imp.prune := by
  rw [prune_eq imp.prune]
  refine congrArg (fun blocks ↦ { imp.prune with blocks }) (List.filter_eq_self.mpr fun b hb ↦ ?_)
  exact decide_eq_true (reachable_prune_iff.mpr (mem_blocks_prune_iff.mp hb).2)

/-- Pruning keeps the headers. -/
theorem isHeader_prune_iff : imp.prune.IsHeader b ↔ imp.IsHeader b := by
  cases hentry : imp.entry? with
  | none =>
    have hentry' : imp.prune.entry? = none := (entry?_prune imp).trans hentry
    exact iff_of_false (fun h ↦ not_reachable hentry' h.reachable)
      fun h ↦ not_reachable hentry h.reachable
  | some entry =>
    have hentry' : imp.prune.entry? = some entry := (entry?_prune imp).trans hentry
    rw [isHeader_iff hentry, isHeader_iff hentry',
      isHeader_iff_of_agree (mem_targetsOf_prune_iff hentry)]

/-! ### Recorded predecessors -/

/-- The blocks whose transfer names a block, in block order. -/
def predecessorsOf (imp : Implementation) (b : BlockId) : List BlockId :=
  (imp.blocks.filter (·.successors.contains b)).map Block.id

theorem predecessorIds_eq (hids : imp.blockIds.Nodup) :
    predecessorIds imp.blocks b = imp.predecessorsOf b :=
  eraseDups_of_nodup (hids.sublist (List.filter_sublist.map _))

theorem predecessorsOf_mapBlocks {f : Block → Block} (hid : ∀ b, (f b).id = b.id)
    (htransfer : ∀ b, (f b).transfer = b.transfer) :
    (imp.mapBlocks f).predecessorsOf = imp.predecessorsOf := by
  ext1 b
  have hsuccessors : ∀ c, (f c).successors.contains b = c.successors.contains b :=
    fun c ↦ congrArg (fun transfer ↦ (Transfer.targets transfer).contains b) (htransfer c)
  rw [predecessorsOf, mapBlocks, List.filter_map, List.map_map, predecessorsOf]
  exact (List.map_congr_left fun c _ ↦ hid c).trans
    (congrArg (List.map Block.id) (List.filter_congr fun c _ ↦ hsuccessors c))

/-- Where identifiers are distinct, the predecessors of every block are recorded. -/
theorem recordPredecessors_eq (hids : imp.blockIds.Nodup) :
    imp.recordPredecessors =
      imp.mapBlocks fun b ↦ { b with predecessors := imp.predecessorsOf b.id } := by
  rw [recordPredecessors, recordFrom_eq_map hids]
  simp only [getD_notedSources, predecessorIds_eq hids]
  rfl

end OwnershipFlow.Implementation
