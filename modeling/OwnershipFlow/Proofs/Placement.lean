import Mathlib.Data.List.Flatten
import OwnershipFlow.Proofs.Loops
import OwnershipFlow.Proofs.Reachability
import OwnershipFlow.Proofs.Slots

/-!
# Where assumptions are placed

The first stage of a pass fills the places after parallel calls and keeps the reachable blocks
(`exists_withCalls`). It changes neither the identifiers nor the transfers of blocks, so the loops
found afterwards are those of the implementation as it was given (`exists_loops`): the pass fails
exactly if some closed walk through reachable blocks has no header (`instrument_fails_iff`). The
second stage fills the places at the start of loop headers (`exists_atHeaders`).

Both stages take numbers in a row, the second going on where the first ended, and each number is
used once at most (`exists_stages`). So all assumptions of the result have different identifiers,
unless the command counter passes its greatest value on the way.
-/

set_option autoImplicit false
set_option relaxedAutoImplicit false

namespace OwnershipFlow

variable {t : Instrumenter} {imp : Implementation} {s : Supply} {b entry : BlockId}

namespace Implementation

/-- Some closed walk through reachable blocks meets no block that dominates all of its blocks. -/
def HasUnheadedLoop (imp : Implementation) : Prop :=
  ∃ start left, imp.Reachable start ∧ Walk imp.targetsOf start left start ∧ left ≠ [] ∧
    ∀ a ∈ left, ∃ b ∈ left, ¬ imp.Dominates a b

theorem hasUnheadedLoop_iff (hentry : imp.entry? = some entry) :
    imp.HasUnheadedLoop ↔ ¬ HeadedLoops imp.targetsOf entry := by
  simp only [HasUnheadedLoop, HeadedLoops, reachable_iff hentry, dominates_iff hentry]
  push Not
  rfl

theorem hasUnheadedLoop_prune_iff : imp.prune.HasUnheadedLoop ↔ imp.HasUnheadedLoop := by
  cases hentry : imp.entry? with
  | none =>
    have hentry' : imp.prune.entry? = none := (entry?_prune imp).trans hentry
    exact iff_of_false (fun ⟨_, _, h, _⟩ ↦ not_reachable hentry' h)
      fun ⟨_, _, h, _⟩ ↦ not_reachable hentry h
  | some entry =>
    have hentry' : imp.prune.entry? = some entry := (entry?_prune imp).trans hentry
    rw [hasUnheadedLoop_iff hentry, hasUnheadedLoop_iff hentry',
      headedLoops_iff_of_agree (mem_targetsOf_prune_iff hentry)]

theorem hasUnheadedLoop_mapBlocks_iff {f : Block → Block} (hid : ∀ b, (f b).id = b.id)
    (htransfer : ∀ b, (f b).transfer = b.transfer) :
    (imp.mapBlocks f).HasUnheadedLoop ↔ imp.HasUnheadedLoop := by
  unfold HasUnheadedLoop Reachable Dominates
  rw [entry?_mapBlocks hid, targetsOf_mapBlocks hid htransfer]

end Implementation

namespace Instrumenter

/-! ### Parallel calls -/

/-- A block with assumptions after its parallel calls, as it is left in the implementation. -/
def placeCalls (t : Instrumenter) (imp : Implementation) (ids : BlockId → List CommandId)
    (b : Block) : Block :=
  { b with
    commands := fill (t.bodySlots b) (ids b.id)
    predecessors := imp.prune.predecessorsOf b.id }

theorem id_placeCalls {ids : BlockId → List CommandId} (b : Block) :
    (t.placeCalls imp ids b).id = b.id := rfl

theorem transfer_placeCalls {ids : BlockId → List CommandId} (b : Block) :
    (t.placeCalls imp ids b).transfer = b.transfer := rfl

/-- The first stage keeps the reachable blocks and fills the places after their parallel calls. The
blocks that it removes have used up numbers too. -/
theorem exists_withCalls (hids : imp.blockIds.Nodup) :
    ∃ ids : BlockId → List CommandId,
      t.withCalls imp s = (imp.prune.mapBlocks (t.placeCalls imp ids),
        s.skipCommands (assumptions (imp.blocks.flatMap t.bodySlots))) ∧
      imp.blocks.flatMap (fun b ↦ ids b.id) =
        s.nextCommands (assumptions (imp.blocks.flatMap t.bodySlots)) ∧
      ∀ b ∈ imp.blocks, (ids b.id).length = assumptions (t.bodySlots b) := by
  obtain ⟨ids, hblocks, hall, hlength⟩ := exists_afterCallsOfBlocks (t := t) (s := s) hids
  refine ⟨ids, ?_, hall, hlength⟩
  have hid : ∀ b, (t.fillBody (ids b.id) b).id = b.id := fun _ ↦ rfl
  have htransfer : ∀ b, (t.fillBody (ids b.id) b).transfer = b.transfer := fun _ ↦ rfl
  have hfilled : { imp with blocks := imp.blocks.map fun b ↦ t.fillBody (ids b.id) b } =
    imp.mapBlocks fun b ↦ t.fillBody (ids b.id) b := rfl
  have hdistinct : (imp.prune.mapBlocks fun b ↦ t.fillBody (ids b.id) b).blockIds.Nodup := by
    rw [Implementation.blockIds_mapBlocks hid]
    exact Implementation.nodup_blockIds_prune hids
  simp only [withCalls, hblocks]
  rw [hfilled, Implementation.prune_mapBlocks hid htransfer,
    Implementation.recordPredecessors_eq hdistinct, Implementation.mapBlocks_mapBlocks,
    Implementation.predecessorsOf_mapBlocks hid htransfer]
  rfl

/-! ### Loop headers -/

/-- What is to be assumed at the start of a loop header. -/
def conditionsAt (t : Instrumenter) (b : BlockId) : List Expr :=
  t.disjointnessAt (.block b) true

/-- The places at the start of a loop header. -/
def headerSlots (t : Instrumenter) (b : Block) : List Slot :=
  (t.conditionsAt b.id).map (.assumed b.span)

/-- A block with the places at its start filled if it is one of the given headers. -/
def placeAt (t : Instrumenter) (headers : List BlockId) (ids : BlockId → List CommandId)
    (b : Block) : Block :=
  if b.id ∈ headers then { b with commands := fill (t.headerSlots b) (ids b.id) ++ b.commands }
  else b

theorem id_placeAt {headers : List BlockId} {ids : BlockId → List CommandId} {b : Block} :
    (t.placeAt headers ids b).id = b.id := by
  rw [placeAt]
  split_ifs <;> rfl

theorem atHeader_eq (hids : imp.blockIds.Nodup) (hb : b ∈ imp.blockIds) :
    t.atHeader (imp, s) b =
      (imp.mapBlocks (t.placeAt [b] fun _ ↦ s.nextCommands (t.conditionsAt b).length),
        s.skipCommands (t.conditionsAt b).length) := by
  obtain ⟨block, hblock⟩ := Implementation.exists_block? hb
  obtain ⟨hmem, rfl⟩ := Implementation.block?_eq_some hblock
  simp only [atHeader, hblock, assumeAt, assume]
  rw [Implementation.modifyBlock_eq_mapBlocks hids]
  refine congrArg (·, _) (congrArg (fun blocks ↦ { imp with blocks }) ?_)
  refine List.map_congr_left fun c hc ↦ ?_
  by_cases hid : c.id = block.id
  · obtain rfl := List.inj_on_of_nodup_map hids hc hmem hid
    rw [if_pos rfl, placeAt, if_pos List.mem_cons_self, headerSlots, fill_map_assumed]
    rfl
  · rw [if_neg hid, placeAt, if_neg (mt List.mem_singleton.mp hid)]

/-- Filling the places of one more header first. -/
theorem placeAt_cons {header : BlockId} {rest : List BlockId} {ids : BlockId → List CommandId}
    {new : List CommandId} (hnew : header ∉ rest) :
    t.placeAt rest ids ∘ t.placeAt [header] (fun _ ↦ new) =
      t.placeAt (header :: rest) (Function.update ids header new) := by
  ext1 b
  by_cases hb : b.id = header
  · subst hb
    simp [placeAt, hnew]
  · simp [placeAt, hb]

/-- The second stage fills the places at the start of the given blocks, in their order. -/
theorem exists_atHeaders {headers : List BlockId} (hnodup : headers.Nodup)
    (hids : imp.blockIds.Nodup) (hmem : ∀ b ∈ headers, b ∈ imp.blockIds) :
    ∃ ids : BlockId → List CommandId,
      t.atHeaders headers (imp, s) = (imp.mapBlocks (t.placeAt headers ids),
        s.skipCommands (headers.flatMap t.conditionsAt).length) ∧
      headers.flatMap ids = s.nextCommands (headers.flatMap t.conditionsAt).length ∧
      ∀ b ∈ headers, (ids b).length = (t.conditionsAt b).length := by
  induction headers generalizing imp s with
  | nil =>
    refine ⟨fun _ ↦ [], ?_, rfl, fun b hb ↦ absurd hb List.not_mem_nil⟩
    have hsame : ∀ b ∈ imp.blocks, t.placeAt [] (fun _ ↦ []) b = b :=
      fun b _ ↦ if_neg List.not_mem_nil
    rw [Implementation.mapBlocks, List.map_congr_left hsame, List.map_id', List.flatMap_nil,
      List.length_nil, Supply.skipCommands_zero]
    rfl
  | cons header rest ih =>
    rw [List.nodup_cons] at hnodup
    have hids' : (imp.mapBlocks (t.placeAt [header] fun _ ↦
        s.nextCommands (t.conditionsAt header).length)).blockIds = imp.blockIds :=
      Implementation.blockIds_mapBlocks fun _ ↦ id_placeAt
    obtain ⟨ids, hblocks, hall, hlength⟩ := ih (s := s.skipCommands (t.conditionsAt header).length)
      hnodup.2 (hids'.symm ▸ hids) fun b hb ↦ hids'.symm ▸ hmem b (List.mem_cons_of_mem _ hb)
    have hother : ∀ b ∈ rest, Function.update ids header
        (s.nextCommands (t.conditionsAt header).length) b = ids b := by
      intro b hb
      refine Function.update_of_ne ?_ _ _
      rintro rfl
      exact hnodup.1 hb
    refine ⟨Function.update ids header (s.nextCommands (t.conditionsAt header).length),
      ?_, ?_, fun b hb ↦ ?_⟩
    · rw [atHeaders, List.foldl_cons, atHeader_eq hids (hmem header List.mem_cons_self)]
      refine hblocks.trans ?_
      rw [Implementation.mapBlocks_mapBlocks, placeAt_cons hnodup.1,
        Supply.skipCommands_skipCommands, List.flatMap_cons, List.length_append]
    · rw [List.flatMap_cons, List.flatMap_cons, List.length_append, Supply.nextCommands_add,
        Function.update_self, ← hall]
      exact congrArg _ (List.flatMap_congr hother)
    · rcases List.mem_cons.mp hb with rfl | hb
      · rw [Function.update_self, Supply.length_nextCommands]
      · rw [hother b hb, hlength b hb]

/-! ### The verdict -/

section Verdict

variable (hids : imp.blockIds.Nodup)

include hids

theorem entry?_withCalls : Implementation.entry? (t.withCalls imp s).1 = imp.entry? := by
  obtain ⟨ids, hcalls, -⟩ := exists_withCalls (t := t) (s := s) hids
  rw [hcalls]
  exact (Implementation.entry?_mapBlocks id_placeCalls).trans (Implementation.entry?_prune imp)

/-- The loops found after the first stage are those of the implementation as it was before. -/
theorem exists_loops (hentry : imp.entry? = some entry) :
    ∃ g, FlowGraph.of? (t.withCalls imp s).1 = some g ∧
      (g.loops.reducible = true ↔ ¬ imp.HasUnheadedLoop) ∧
      ∀ b, b ∈ g.loops.headers ↔ imp.IsHeader b := by
  have hentry' : Implementation.entry? (t.withCalls imp s).1 = some entry :=
    (entry?_withCalls hids).trans hentry
  obtain ⟨ids, hcalls, -⟩ := exists_withCalls (t := t) (s := s) hids
  have hids' : (t.withCalls imp s).1.blockIds.Nodup := by
    rw [hcalls, Implementation.blockIds_mapBlocks id_placeCalls]
    exact Implementation.nodup_blockIds_prune hids
  have hloops : (t.withCalls imp s).1.HasUnheadedLoop ↔ imp.HasUnheadedLoop := by
    rw [hcalls, Implementation.hasUnheadedLoop_mapBlocks_iff id_placeCalls transfer_placeCalls,
      Implementation.hasUnheadedLoop_prune_iff]
  have hheaders : ∀ b, (t.withCalls imp s).1.IsHeader b ↔ imp.IsHeader b := by
    intro b
    rw [hcalls, Implementation.isHeader_mapBlocks_iff id_placeCalls transfer_placeCalls,
      Implementation.isHeader_prune_iff]
  obtain ⟨g, hg⟩ := FlowGraph.exists_of? hentry'
  have hdescribes := FlowGraph.describes_of? hids' hg hentry'
  refine ⟨g, hg, ?_, fun b ↦ ?_⟩
  · rw [hdescribes.reducible_iff, ← hloops, Implementation.hasUnheadedLoop_iff hentry', not_not]
  · rw [hdescribes.mem_headers_iff, ← Implementation.isHeader_iff hentry', hheaders]

/-- Where every loop has a header, the pass goes through both stages. -/
theorem instrument_eq_of_not_hasUnheadedLoop (h : ¬ imp.HasUnheadedLoop) :
    ∃ headers : List BlockId, headers.Nodup ∧ (∀ b, b ∈ headers ↔ imp.IsHeader b) ∧
      t.instrument imp s = ⟨(t.atHeaders headers (t.withCalls imp s)).1,
        (t.atHeaders headers (t.withCalls imp s)).2, none⟩ := by
  cases hentry : imp.entry? with
  | none =>
    have hnone := FlowGraph.of?_eq_none ((entry?_withCalls (t := t) (s := s) hids).trans hentry)
    refine ⟨[], List.nodup_nil, fun b ↦ iff_of_false List.not_mem_nil fun hb ↦ ?_, ?_⟩
    · exact Implementation.not_reachable hentry hb.reachable
    · simp only [instrument, hnone]
      rfl
  | some entry =>
    obtain ⟨g, hg, hreducible, hheaders⟩ := exists_loops (t := t) (s := s) hids hentry
    refine ⟨g.loops.headers, nodup_keys_map _, hheaders, ?_⟩
    simp only [instrument, hg, hreducible.mpr h, if_true]

/-- Where some loop has none, the pass ends after the first stage. -/
theorem instrument_eq_of_hasUnheadedLoop (h : imp.HasUnheadedLoop) :
    t.instrument imp s =
      ⟨(t.withCalls imp s).1, (t.withCalls imp s).2, some ⟨imp.name, imp.span⟩⟩ := by
  have ⟨_, _, ⟨entry, hentry, _⟩, _⟩ := h
  obtain ⟨g, hg, hreducible, -⟩ := exists_loops (t := t) (s := s) hids hentry
  obtain ⟨ids, hcalls, -⟩ := exists_withCalls (t := t) (s := s) hids
  have hirreducible : ¬ g.loops.reducible = true := fun htrue ↦ hreducible.mp htrue h
  have hname : (t.withCalls imp s).1.name = imp.name := by
    rw [hcalls, Implementation.prune_eq]
    rfl
  have hspan : (t.withCalls imp s).1.span = imp.span := by
    rw [hcalls, Implementation.prune_eq]
    rfl
  simp only [instrument, hg, if_neg hirreducible, hname, hspan]

end Verdict

/-! ### The result -/

/-- The places in a block: at its start, if it is a loop header, and after its parallel calls. -/
def slots (t : Instrumenter) (imp : Implementation) (b : Block) : List Slot :=
  (if imp.IsHeader b.id then t.headerSlots b else []) ++ t.bodySlots b

theorem flatMap_ite_nil {α β : Type} (p : α → Prop) [DecidablePred p] (f : α → List β)
    (l : List α) : (l.flatMap fun a ↦ if p a then f a else []) = (l.filter p).flatMap f := by
  induction l with
  | nil => rfl
  | cons a rest ih =>
    rw [List.flatMap_cons, ih, List.filter_cons]
    by_cases ha : p a <;> simp [ha]

section Result

variable {headers : List BlockId} {q : BlockId → Prop} [DecidablePred q]
  (hheaders : ∀ b, b ∈ headers ↔ q b)

include hheaders

/-- The numbers at the start of a block are as many as the places there. -/
theorem length_heads {heads : BlockId → List CommandId}
    (hlength : ∀ b ∈ headers, (heads b).length = (t.conditionsAt b).length) (b : Block) :
    (if q b.id then heads b.id else []).length =
      assumptions (if q b.id then t.headerSlots b else []) := by
  split_ifs with hb
  · rw [hlength b.id ((hheaders b.id).mpr hb), headerSlots, assumptions_map_assumed]
  · rfl

variable (hreach : ∀ b, q b → imp.Reachable b) (hids : imp.blockIds.Nodup)
  (hnodup : headers.Nodup)

include hreach hids hnodup

/-- The headers are the identifiers of the blocks that are headers. -/
theorem headers_perm : ((imp.blocks.filter (q ·.id)).map Block.id).Perm headers := by
  refine (List.perm_ext_iff_of_nodup (hids.sublist (List.filter_sublist.map _)) hnodup).mpr
    fun b ↦ ?_
  rw [hheaders]
  constructor
  · intro h
    obtain ⟨block, hblock, rfl⟩ := List.mem_map.mp h
    exact of_decide_eq_true (List.mem_filter.mp hblock).2
  · intro h
    obtain ⟨block, hblock, rfl⟩ := List.mem_map.mp (hreach b h).mem_blockIds
    exact List.mem_map_of_mem (List.mem_filter.mpr ⟨hblock, decide_eq_true h⟩)

/-- The numbers used in reachable blocks are among those taken from the supply, each used once. -/
theorem subperm_nextCommands {heads ids : BlockId → List CommandId} {m n : Nat}
    (hbodies : imp.blocks.flatMap (fun b ↦ ids b.id) = s.nextCommands m)
    (hheads : headers.flatMap heads = (s.skipCommands m).nextCommands n) :
    List.Subperm ((imp.blocks.filter (imp.Reachable ·.id)).flatMap fun b ↦
        (if q b.id then heads b.id else []) ++ ids b.id)
      (s.nextCommands (m + n)) := by
  have hfilter : (imp.blocks.filter (imp.Reachable ·.id)).filter (q ·.id) =
      imp.blocks.filter (q ·.id) := by
    rw [List.filter_filter]
    refine List.filter_congr fun b _ ↦ ?_
    rw [Bool.eq_iff_iff, Bool.and_eq_true, decide_eq_true_iff, decide_eq_true_iff]
    exact and_iff_left_of_imp (hreach b.id)
  have hfirst : List.Subperm ((imp.blocks.filter (imp.Reachable ·.id)).flatMap fun b ↦
      if q b.id then heads b.id else []) ((s.skipCommands m).nextCommands n) := by
    rw [flatMap_ite_nil, hfilter, ← hheads, ← List.flatMap_map]
    exact ((headers_perm hheaders hreach hids hnodup).flatMap_right heads).subperm
  have hsecond : List.Subperm ((imp.blocks.filter (imp.Reachable ·.id)).flatMap fun b ↦ ids b.id)
      (s.nextCommands m) := by
    rw [← hbodies]
    exact (List.filter_sublist.flatMap _).subperm
  rw [Supply.nextCommands_add]
  exact (List.flatMap_append_perm _ _ _).symm.subperm.trans
    (List.perm_append_comm.subperm.trans (hsecond.append hfirst))

/-- The two stages leave the reachable blocks with all their places filled, and the second goes on
with the numbers where the first has ended. -/
theorem exists_stages (t : Instrumenter) (s : Supply) :
    ∃ ids : BlockId → List CommandId,
      t.atHeaders headers (t.withCalls imp s) = (imp.prune.mapBlocks fun b ↦ { b with
          commands := fill ((if q b.id then t.headerSlots b else []) ++ t.bodySlots b) (ids b.id)
          predecessors := imp.prune.predecessorsOf b.id },
        s.skipCommands (assumptions (imp.blocks.flatMap t.bodySlots) +
          (headers.flatMap t.conditionsAt).length)) ∧
      (∀ b ∈ imp.blocks, (ids b.id).length =
        assumptions ((if q b.id then t.headerSlots b else []) ++ t.bodySlots b)) ∧
      List.Subperm ((imp.blocks.filter (imp.Reachable ·.id)).flatMap fun b ↦ ids b.id)
        (s.nextCommands (assumptions (imp.blocks.flatMap t.bodySlots) +
          (headers.flatMap t.conditionsAt).length)) := by
  obtain ⟨bodies, hcalls, hbodies, hbodyLength⟩ := exists_withCalls (t := t) (s := s) hids
  have hids' : (imp.prune.mapBlocks (t.placeCalls imp bodies)).blockIds = imp.prune.blockIds :=
    Implementation.blockIds_mapBlocks id_placeCalls
  obtain ⟨heads, hstage, hheads, hheadLength⟩ := exists_atHeaders (t := t)
    (s := s.skipCommands (assumptions (imp.blocks.flatMap t.bodySlots))) hnodup
    (hids'.symm ▸ Implementation.nodup_blockIds_prune hids) fun b hb ↦
      hids'.symm ▸ Implementation.mem_blockIds_prune_iff.mpr (hreach b ((hheaders b).mp hb))
  have hstart := length_heads hheaders hheadLength
  refine ⟨fun b ↦ (if q b then heads b else []) ++ bodies b, ?_, fun b hb ↦ ?_,
    subperm_nextCommands hheaders hreach hids hnodup hbodies hheads⟩
  · rw [hcalls, hstage, Implementation.mapBlocks_mapBlocks, Supply.skipCommands_skipCommands]
    refine congrArg (imp.prune.mapBlocks ·, _) (funext fun b ↦ ?_)
    rw [fill_append (hstart b), Function.comp, placeAt]
    simp only [id_placeCalls, hheaders]
    by_cases hb : q b.id
    · rw [if_pos hb, if_pos hb, if_pos hb]
      rfl
    · rw [if_neg hb, if_neg hb, if_neg hb]
      rfl
  · rw [List.length_append, hstart, hbodyLength b hb, assumptions_append]

end Result

theorem assumptions_headerSlots {headers : List BlockId}
    (hheaders : ∀ b, b ∈ headers ↔ imp.IsHeader b) (hids : imp.blockIds.Nodup)
    (hnodup : headers.Nodup) :
    assumptions ((imp.blocks.filter (imp.IsHeader ·.id)).flatMap t.headerSlots) =
      (headers.flatMap t.conditionsAt).length := by
  have hperm := headers_perm hheaders (fun _ h ↦ h.reachable) hids hnodup
  rw [← (hperm.flatMap_right t.conditionsAt).length_eq]
  generalize imp.blocks.filter (imp.IsHeader ·.id) = blocks
  induction blocks with
  | nil => rfl
  | cons b rest ih =>
    rw [List.flatMap_cons, assumptions_append, ih, headerSlots, assumptions_map_assumed,
      List.map_cons, List.flatMap_cons, List.length_append]

/-- A pass without an error leaves the reachable blocks in their order, each with assumptions at its
start if it is a loop header and after each of its parallel calls, and with its predecessors among
these blocks. The identifiers of the assumptions are taken from the supply, each for one of them. As
long as the command counter does not pass its greatest value, they are all different and new. -/
theorem instrument_places_assumptions (t : Instrumenter) (imp : Implementation) (s : Supply)
    (hids : imp.blockIds.Nodup) (hok : (t.instrument imp s).error? = none) :
    ∃ (ids : BlockId → List CommandId) (count : Nat),
      (t.instrument imp s).implementation = { imp with
        blocks := (imp.blocks.filter (imp.Reachable ·.id)).map fun b ↦ { b with
          commands := fill (t.slots imp b) (ids b.id)
          predecessors := imp.prune.predecessorsOf b.id } } ∧
      (∀ b ∈ imp.blocks, imp.Reachable b.id →
        (ids b.id).length = assumptions (t.slots imp b)) ∧
      count = assumptions (imp.blocks.flatMap t.bodySlots) +
        assumptions ((imp.blocks.filter (imp.IsHeader ·.id)).flatMap t.headerSlots) ∧
      (t.instrument imp s).supply = s.skipCommands count ∧
      List.Subperm ((imp.blocks.filter (imp.Reachable ·.id)).flatMap fun b ↦ ids b.id)
        (s.nextCommands count) ∧
      (s.HasCommands count →
        ((imp.blocks.filter (imp.Reachable ·.id)).flatMap fun b ↦ ids b.id).Nodup ∧
        ∀ b ∈ imp.blocks, imp.Reachable b.id → ∀ id ∈ ids b.id, s.command.toNat ≤ id.index ∧
          id.index < (t.instrument imp s).supply.command.toNat) := by
  have hheaded : ¬ imp.HasUnheadedLoop := by
    intro h
    rw [instrument_eq_of_hasUnheadedLoop hids h] at hok
    cases hok
  obtain ⟨headers, hnodup, hheaders, hresult⟩ :=
    instrument_eq_of_not_hasUnheadedLoop (t := t) (s := s) hids hheaded
  obtain ⟨ids, hstages, hlength, hsubperm⟩ :=
    exists_stages hheaders (fun _ h ↦ h.reachable) hids hnodup t s
  rw [← assumptions_headerSlots hheaders hids hnodup] at hstages hsubperm
  rw [hresult, hstages]
  refine ⟨ids, _, Implementation.mapBlocks_prune, fun b hb _ ↦ hlength b hb, rfl, rfl, hsubperm,
    fun hroom ↦ ⟨Supply.nodup_of_subperm hroom hsubperm, fun b hb hreach id hid ↦ ?_⟩⟩
  refine (Supply.mem_nextCommands hroom).mp (hsubperm.subset (List.mem_flatMap.mpr ⟨b, ?_, hid⟩))
  exact List.mem_filter.mpr ⟨hb, decide_eq_true hreach⟩

/-- A loop around a parallel call, with another parallel call in a block that cannot be reached. -/
def spinning : Implementation where
  id := ⟨0⟩
  procedure := ⟨0⟩
  name := "spinning"
  ins := []
  outs := []
  locals := []
  blocks :=
    [⟨⟨0⟩, "entry", [], .goto [⟨1⟩], [], .zero⟩,
      ⟨⟨1⟩, "loop", [⟨⟨0⟩, .zero, .parCall []⟩], .goto [⟨1⟩], [], .zero⟩,
      ⟨⟨2⟩, "dead", [⟨⟨1⟩, .zero, .parCall []⟩], .goto [⟨1⟩], [], .zero⟩]
  span := .zero

/-- A program with two global variables that own permissions of one domain. -/
def twoTokens : Program :=
  ((Program.empty.addVar ⟨"left", true, .linear, some "Token", none, .zero⟩).2.addVar
    ⟨"right", true, .linear, some "Token", none, .zero⟩).2

/-- An instrumenter that assumes the globals of a program to be disjoint. -/
def observer : Instrumenter where
  checked :=
    { vars := twoTokens.vars
      globals := twoTokens.globals
      signatures := twoTokens.signatures
      defaultLayers := ⟨0, twoTokens.greatestLayer⟩
      registry := twoTokens.registry }
  origins := .empty
  settings := .atLayer 0

/-- What it assumes where both of them are in scope. -/
def tokensApart : Expr :=
  .app "Token#disjoint" [.app "Token#collect" [.var ⟨0⟩], .app "Token#collect" [.var ⟨1⟩]]

/-- The loop gets an assumption at its start and one after its parallel call. The block that is
removed has used up an identifier too. -/
theorem instrument_places_assumptions_spinning : spinning.blockIds.Nodup ∧
    (observer.instrument spinning ⟨0, 1, 3, 2⟩).error? = none ∧
    Supply.HasCommands ⟨0, 1, 3, 2⟩ 3 ∧
    (observer.instrument spinning ⟨0, 1, 3, 2⟩).supply = ⟨0, 1, 3, 5⟩ ∧
    ∃ first second : CommandId, first ≠ second ∧ 2 ≤ first.index ∧ 2 ≤ second.index ∧
      (observer.instrument spinning ⟨0, 1, 3, 2⟩).implementation.blocks.map
          (fun b ↦ (b.id, b.commands)) =
        [(⟨0⟩, []), (⟨1⟩, [⟨first, .zero, .assume tokensApart⟩, ⟨⟨0⟩, .zero, .parCall []⟩,
          ⟨second, .zero, .assume tokensApart⟩])] := by
  have hok : (observer.instrument spinning ⟨0, 1, 3, 2⟩).error? = none := by decide +kernel
  have hkept : spinning.blocks.filter (spinning.Reachable ·.id) = spinning.blocks.take 2 := by
    decide +kernel
  have hslots : (spinning.blocks.take 2).map (observer.slots spinning) =
      [[], [.assumed .zero tokensApart, .kept ⟨⟨0⟩, .zero, .parCall []⟩,
        .assumed .zero tokensApart]] := by decide +kernel
  obtain ⟨ids, count, hresult, hlength, hcount, hsupply, -, hfresh⟩ :=
    instrument_places_assumptions observer spinning ⟨0, 1, 3, 2⟩ (by decide) hok
  obtain rfl : count = 3 := hcount.trans (by decide +kernel)
  obtain ⟨hnodup, hnew⟩ := hfresh (by decide)
  obtain ⟨hentry, hloop⟩ := List.cons.inj hslots
  obtain ⟨hloop, -⟩ := List.cons.inj hloop
  -- Two identifiers are taken for the places in the loop.
  have htwo := hlength _ (List.mem_cons_of_mem _ List.mem_cons_self) (by decide +kernel)
  rw [hloop] at htwo
  obtain ⟨first, second, hids⟩ := List.length_eq_two.mp htwo
  have hnew := hnew _ (List.mem_cons_of_mem _ List.mem_cons_self) (by decide +kernel)
  rw [hids] at hnew
  rw [hkept] at hresult hnodup
  refine ⟨by decide, hok, by decide, hsupply.trans (by decide), first, second, ?_,
    (hnew first List.mem_cons_self).1,
    (hnew second (List.mem_cons_of_mem _ List.mem_cons_self)).1, ?_⟩
  · have hpair := (List.nodup_flatMap.mp hnodup).1 _ (List.mem_cons_of_mem _ List.mem_cons_self)
    rw [hids] at hpair
    exact fun heq ↦ (List.nodup_cons.mp hpair).1 (List.mem_singleton.mpr heq)
  · rw [hresult]
    show [((⟨0⟩ : BlockId), fill (observer.slots spinning _) (ids ⟨0⟩)),
      ((⟨1⟩ : BlockId), fill (observer.slots spinning _) (ids ⟨1⟩))] = _
    rw [hentry, hloop, hids]
    rfl

/-- The pass ends with an error exactly if some loop has no header. It then leaves the reachable
blocks in their order with assumptions after their parallel calls and nowhere else, and the supply
has been used for the parallel calls of all blocks, also those removed. -/
theorem instrument_fails_iff (t : Instrumenter) (imp : Implementation) (s : Supply)
    (hids : imp.blockIds.Nodup) :
    ((t.instrument imp s).error? = some ⟨imp.name, imp.span⟩ ↔ imp.HasUnheadedLoop) ∧
    ((t.instrument imp s).error? = none ↔ ¬ imp.HasUnheadedLoop) ∧
    (imp.HasUnheadedLoop → ∃ ids : BlockId → List CommandId,
      (t.instrument imp s).implementation = { imp with
        blocks := (imp.blocks.filter (imp.Reachable ·.id)).map fun b ↦ { b with
          commands := fill (t.bodySlots b) (ids b.id)
          predecessors := imp.prune.predecessorsOf b.id } } ∧
      (∀ b ∈ imp.blocks, (ids b.id).length = assumptions (t.bodySlots b)) ∧
      imp.blocks.flatMap (fun b ↦ ids b.id) =
        s.nextCommands (assumptions (imp.blocks.flatMap t.bodySlots)) ∧
      (t.instrument imp s).supply =
        s.skipCommands (assumptions (imp.blocks.flatMap t.bodySlots))) := by
  by_cases h : imp.HasUnheadedLoop
  · obtain ⟨ids, hcalls, hall, hlength⟩ := exists_withCalls (t := t) (s := s) hids
    rw [instrument_eq_of_hasUnheadedLoop hids h, hcalls]
    refine ⟨iff_of_true rfl h, iff_of_false (fun hnone ↦ by cases hnone) (not_not_intro h),
      fun _ ↦ ⟨ids, ?_, hlength, hall, rfl⟩⟩
    exact Implementation.mapBlocks_prune
  · obtain ⟨headers, -, -, hresult⟩ :=
      instrument_eq_of_not_hasUnheadedLoop (t := t) (s := s) hids h
    rw [hresult]
    exact ⟨iff_of_false (fun hsome ↦ by cases hsome) h, iff_of_true rfl h, fun h' ↦ absurd h' h⟩

/-- Two blocks that lead to each other and can both be entered from outside. -/
def crossing : Implementation where
  id := ⟨0⟩
  procedure := ⟨0⟩
  name := "crossing"
  ins := []
  outs := []
  locals := []
  blocks :=
    [⟨⟨0⟩, "entry", [], .goto [⟨1⟩, ⟨2⟩], [], .zero⟩,
      ⟨⟨1⟩, "left", [⟨⟨0⟩, .zero, .parCall []⟩], .goto [⟨2⟩], [], .zero⟩,
      ⟨⟨2⟩, "right", [], .goto [⟨1⟩], [], .zero⟩]
  span := .zero

theorem instrument_fails_iff_crossing : crossing.blockIds.Nodup ∧
    crossing.HasUnheadedLoop ∧
    (observer.instrument crossing ⟨0, 1, 3, 1⟩).error? = some ⟨"crossing", .zero⟩ := by
  have hloop : crossing.HasUnheadedLoop :=
    ⟨⟨1⟩, [⟨1⟩, ⟨2⟩], by decide +kernel, .cons (by decide) (.single (by decide)),
      List.cons_ne_nil _ _, by decide +kernel⟩
  exact ⟨by decide, hloop,
    (instrument_fails_iff observer crossing ⟨0, 1, 3, 1⟩ (by decide)).1.mpr hloop⟩

end Instrumenter

end OwnershipFlow
