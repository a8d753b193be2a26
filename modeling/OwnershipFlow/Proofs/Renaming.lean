import OwnershipFlow.Proofs.Availability

/-!
# Availability in renamed implementations

An implementation with its blocks renamed and its commands under other identifiers (`Renames`) has
the edges of the original with their blocks renamed (`edgeImage`), and so its walks and its loop
headers (`isHeader_iff`). As what is available is what is held along all walks, the same variables
are available at corresponding points (`map_availability_nodes`), although the analysis may visit
the blocks of the two implementations in different orders.
-/

set_option autoImplicit false
set_option relaxedAutoImplicit false

namespace OwnershipFlow

variable {p : Program} {imp derived : Implementation} {r : BlockId → BlockId}
  {block other : Block} {held : VarSet} {a b : BlockId}

namespace Block

/-- A block does what another does, and goes where it goes, with block identifiers renamed. -/
structure Renames (r : BlockId → BlockId) (b d : Block) : Prop where
  id : d.id = r b.id
  actions : d.commands.map Command.action = b.commands.map Command.action
  successors : d.successors = b.successors.map r

theorem Renames.length_commands (h : block.Renames r other) :
    block.commands.length = other.commands.length := by
  have hlength := congrArg List.length h.actions
  rw [List.length_map, List.length_map] at hlength
  exact hlength.symm

theorem Renames.length_nodes (h : block.Renames r other) :
    block.nodes.length = other.nodes.length := by
  unfold nodes
  rw [List.length_cons, List.length_cons, List.length_map, List.length_map, h.length_commands]

/-- What is said about the points of two blocks is the same if it is so at each place. -/
theorem map_nodes_eq_map_nodes {γ : Type} {f g : Node → γ}
    (hlength : block.commands.length = other.commands.length)
    (hstart : f (.block block.id) = g (.block other.id))
    (hafter : ∀ (k : Nat) c d, block.commands[k]? = some c → other.commands[k]? = some d →
      f (.command c.id) = g (.command d.id)) : block.nodes.map f = other.nodes.map g := by
  unfold nodes
  rw [List.map_cons, List.map_cons, hstart, List.map_map, List.map_map]
  refine congrArg _ (List.ext_getElem ?_ fun k hk hk' ↦ ?_)
  · rw [List.length_map, List.length_map, hlength]
  · rw [List.length_map] at hk hk'
    rw [List.getElem_map, List.getElem_map]
    exact hafter k _ _ (List.getElem?_eq_getElem hk) (List.getElem?_eq_getElem hk')

end Block

namespace Implementation

/-- An implementation is another one with its blocks renamed and its commands under other
identifiers. A target that is no block does not become one. -/
structure Renames (r : BlockId → BlockId) (imp derived : Implementation) : Prop where
  ins : derived.ins = imp.ins
  blocks : List.Forall₂ (Block.Renames r) imp.blocks derived.blocks
  targets : ∀ b ∈ imp.blocks, ∀ t ∈ b.successors, r t ∈ derived.blockIds → t ∈ imp.blockIds

namespace Renames

variable (h : Renames r imp derived)

include h

theorem blockIds_eq : derived.blockIds = imp.blockIds.map r := by
  unfold blockIds
  rw [List.map_map]
  exact (map_eq_map_of_forall₂ h.blocks fun b d hsame ↦ hsame.id.symm).symm

theorem mem_blockIds (ha : a ∈ imp.blockIds) : r a ∈ derived.blockIds := by
  rw [h.blockIds_eq]
  exact List.mem_map_of_mem ha

theorem entry?_eq : derived.entry? = Option.map r imp.entry? := by
  rw [entry?_eq_head?_blockIds, entry?_eq_head?_blockIds, h.blockIds_eq, List.head?_map]

theorem length_nodes : imp.nodes.length = derived.nodes.length := by
  unfold nodes
  rw [List.length_cons, List.length_cons, List.length_flatMap, List.length_flatMap,
    map_eq_map_of_forall₂ h.blocks fun b d hsame ↦ hsame.length_nodes]

variable (hids : imp.blockIds.Nodup) (hids' : derived.blockIds.Nodup)

include hids'

theorem inj (ha : a ∈ imp.blockIds) (hb : b ∈ imp.blockIds) (heq : r a = r b) : a = b := by
  rw [h.blockIds_eq] at hids'
  exact List.inj_on_of_nodup_map hids' ha hb heq

/-- Only a block itself becomes its new name. -/
theorem eq_of_target {t : BlockId} (hblock : block ∈ imp.blocks) (ht : t ∈ block.successors)
    (ha : a ∈ imp.blockIds) (heq : r t = r a) : t = a := by
  have hin : r t ∈ derived.blockIds := heq ▸ h.mem_blockIds ha
  exact h.inj hids' (h.targets block hblock t ht hin) ha heq

include hids

/-! ### Walks -/

theorem targetsOf_eq (hb : b ∈ imp.blockIds) :
    derived.targetsOf (r b) = (imp.targetsOf b).map r := by
  obtain ⟨block, hblock, rfl⟩ := List.mem_map.mp hb
  obtain ⟨other, hother, hsame⟩ := exists_of_forall₂ h.blocks hblock
  unfold targetsOf
  rw [← hsame.id, block?_of_mem hids' hother, block?_of_mem hids hblock, Option.elim_some,
    Option.elim_some, hsame.successors, List.filter_map]
  refine congrArg _ (List.filter_congr fun t ht ↦ Bool.eq_iff_iff.mpr ?_)
  rw [Function.comp, List.contains_iff_mem, List.contains_iff_mem]
  exact ⟨h.targets block hblock t ht, h.mem_blockIds⟩

/-- The edges between the blocks of the one are those of the other. -/
theorem edgeImage : EdgeImage r imp.blockIds imp.targetsOf derived.targetsOf where
  inj _ ha _ hb := h.inj hids' ha hb
  closed _ _ _ := mem_blockIds_of_mem_targetsOf
  next_eq _ hb := h.targetsOf_eq hids hids' hb

theorem reachable_iff (hb : b ∈ imp.blockIds) : derived.Reachable (r b) ↔ imp.Reachable b := by
  have himage := h.edgeImage hids hids'
  unfold Reachable
  rw [h.entry?_eq]
  constructor
  · rintro ⟨entry', hentry', hleads⟩
    obtain ⟨entry, hentry, rfl⟩ := Option.map_eq_some_iff.mp hentry'
    exact ⟨entry, hentry, (himage.leads_iff (entry_mem_blockIds hentry) hb).mp hleads⟩
  · rintro ⟨entry, hentry, hleads⟩
    exact ⟨r entry, by rw [hentry]; rfl,
      (himage.leads_iff (entry_mem_blockIds hentry) hb).mpr hleads⟩

/-- The loop headers of the two implementations correspond. -/
theorem isHeader_iff (hb : b ∈ imp.blockIds) : derived.IsHeader (r b) ↔ imp.IsHeader b := by
  have hentry' := h.entry?_eq
  cases hentry : imp.entry? with
  | none =>
    rw [hentry, Option.map_none] at hentry'
    exact iff_of_false (fun hheader ↦ not_reachable hentry' hheader.reachable)
      fun hheader ↦ not_reachable hentry hheader.reachable
  | some entry =>
    rw [hentry, Option.map_some] at hentry'
    rw [Implementation.isHeader_iff hentry, Implementation.isHeader_iff hentry']
    exact (h.edgeImage hids hids').isHeader_iff (entry_mem_blockIds hentry) hb

/-! ### What is held along walks -/

theorem transferBlock_eq (hb : b ∈ imp.blockIds) :
    p.transferBlock derived (r b) held = p.transferBlock imp b held := by
  obtain ⟨block, hblock, rfl⟩ := List.mem_map.mp hb
  obtain ⟨other, hother, hsame⟩ := exists_of_forall₂ h.blocks hblock
  rw [← hsame.id, Program.transferBlock_of_block? (block?_of_mem hids' hother),
    Program.transferBlock_of_block? (block?_of_mem hids hblock),
    Program.transferAll_congr hsame.actions]

theorem along_eq {left : List BlockId} (hin : ∀ x ∈ left, x ∈ imp.blockIds) :
    p.along derived (left.map r) held = p.along imp left held := by
  induction left generalizing held with
  | nil => rfl
  | cons x rest ih =>
    rw [List.forall_mem_cons] at hin
    unfold Program.along at ih ⊢
    rw [List.map_cons, List.foldl_cons, List.foldl_cons,
      h.transferBlock_eq hids hids' hin.1, ih hin.2]

/-- The same is held along all walks to a block and along all walks to the renamed block. -/
theorem forall_walk_iff {v : VarId} (hb : b ∈ imp.blockIds) :
    (∀ entry left, derived.entry? = some entry → Walk derived.targetsOf entry left (r b) →
      v ∈ p.along derived left (p.heldAtEntry derived)) ↔
    ∀ entry left, imp.entry? = some entry → Walk imp.targetsOf entry left b →
      v ∈ p.along imp left (p.heldAtEntry imp) := by
  have himage := h.edgeImage hids hids'
  rw [h.entry?_eq, Program.heldAtEntry_congr h.ins]
  constructor
  · intro hall entry left hentry hwalk
    have hin := entry_mem_blockIds hentry
    rw [← h.along_eq hids hids' (himage.mem_of_walk hin hwalk)]
    exact hall (r entry) _ (by rw [hentry]; rfl) (himage.walk hin hwalk)
  · intro hall entry' left' hentry' hwalk
    obtain ⟨entry, hentry, rfl⟩ := Option.map_eq_some_iff.mp hentry'
    have hin := entry_mem_blockIds hentry
    obtain ⟨left, hleft, rfl⟩ := (himage.walk_iff hin hb).mp hwalk
    rw [h.along_eq hids hids' (himage.mem_of_walk hin hleft)]
    exact hall entry left hentry hleft

/-! ### The tables -/

variable (hcommands : (imp.commands.map Command.id).Nodup)
  (hcommands' : (derived.commands.map Command.id).Nodup)

include hcommands hcommands'

/-- Corresponding blocks have the same entries. -/
theorem map_availability_block (hblock : block ∈ imp.blocks) (hother : other ∈ derived.blocks)
    (hsame : block.Renames r other) :
    block.nodes.map (fun n ↦ (p.availability imp)[n]?) =
      other.nodes.map (fun n ↦ (p.availability derived)[n]?) := by
  have hlength := hsame.length_commands
  have hb : block.id ∈ imp.blockIds := List.mem_map_of_mem hblock
  have hreach : derived.Reachable other.id ↔ imp.Reachable block.id := by
    rw [hsame.id]
    exact h.reachable_iff hids hids' hb
  by_cases hr : imp.Reachable block.id
  · obtain ⟨held, hheld, hmeet, hafter⟩ :=
      Program.exists_availability (p := p) hids hcommands hblock hr
    obtain ⟨held', hheld', hmeet', hafter'⟩ :=
      Program.exists_availability (p := p) hids' hcommands' hother (hreach.mpr hr)
    have hsets : held = held' := by
      ext v
      rw [hmeet, hmeet', hsame.id, h.forall_walk_iff hids hids' hb]
    refine Block.map_nodes_eq_map_nodes hlength ?_ fun k c d hc hd ↦ ?_
    · rw [hheld, hheld', hsets]
    · rw [hafter k c hc, hafter' k d hd, hsets]
      have htake : (block.commands.take (k + 1)).map Command.action =
          (other.commands.take (k + 1)).map Command.action := by
        rw [List.map_take, List.map_take, hsame.actions]
      rw [Program.transferAll_congr htake]
  · have hnone : ∀ n ∈ block.nodes, (p.availability imp)[n]? = none := fun n hn ↦
      Std.ExtTreeMap.getElem?_eq_none
        (mt (Program.mem_availability_of_mem_nodes hids hcommands hblock hn).mp hr)
    have hnone' : ∀ n ∈ other.nodes, (p.availability derived)[n]? = none := fun n hn ↦
      Std.ExtTreeMap.getElem?_eq_none
        (mt (Program.mem_availability_of_mem_nodes hids' hcommands' hother hn).mp
          (mt hreach.mp hr))
    refine Block.map_nodes_eq_map_nodes hlength ?_ fun k c d hc hd ↦ ?_
    · rw [hnone _ (mem_nodes_block_iff.mpr (.inl rfl)),
        hnone' _ (mem_nodes_block_iff.mpr (.inl rfl))]
    · rw [hnone _ (mem_nodes_block_iff.mpr (.inr ⟨c, List.mem_of_getElem? hc, rfl⟩)),
        hnone' _ (mem_nodes_block_iff.mpr (.inr ⟨d, List.mem_of_getElem? hd, rfl⟩))]

/-- The same is available at corresponding points. -/
theorem map_availability_nodes :
    imp.nodes.map (fun n ↦ (p.availability imp)[n]?) =
      derived.nodes.map (fun n ↦ (p.availability derived)[n]?) := by
  unfold nodes
  rw [List.map_cons, List.map_cons, List.map_flatMap, List.map_flatMap,
    flatMap_eq_flatMap_of_forall₂ h.blocks fun block hblock other hother ↦
      h.map_availability_block hids hids' hcommands hcommands' hblock hother,
    Program.getElem?_availability_implementation hids,
    Program.getElem?_availability_implementation hids']

end Renames

end Implementation

end OwnershipFlow
