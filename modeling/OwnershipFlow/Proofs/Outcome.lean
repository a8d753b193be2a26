import OwnershipFlow.Proofs.Placement

/-!
# What a pass leaves

Whether or not it ends with an error, a pass leaves the reachable blocks in their order with their
places filled: those after parallel calls, and those at the start of loop headers unless some loop
has none (`exists_leaves`). Nothing else is changed in them but the recorded predecessors. What is
filled in stands under identifiers taken from the supply, and these are different and new as long as
the command counter does not pass its greatest value (`Leaves.leavesNew`).

What stands in a filled block is said without places by `Interspersed`: the commands of the block
in their order, with new assumptions after parallel calls only, and in front of them further ones
if the block is one of the headers (`exists_interspersed`).
-/

set_option autoImplicit false
set_option relaxedAutoImplicit false

namespace OwnershipFlow

variable {t : Instrumenter} {imp : Implementation} {s : Supply} {headers : List BlockId}
  {ids : BlockId → List CommandId} {b : Block} {a c : Command}

/-! ### Filled blocks -/

/-- A command that assumes a condition under an identifier not yet handed out. -/
def Supply.Assumes (s : Supply) (a : Command) : Prop :=
  s.command.toNat ≤ a.id.index ∧ ∃ condition, a.action = .assume condition

/-- Commands in their order with new assumptions after parallel calls. -/
inductive Interspersed (s : Supply) : List Command → List Command → Prop
  | nil : Interspersed s [] []
  | cons {c : Command} {assumed commands filled : List Command} (hnew : ∀ a ∈ assumed, s.Assumes a)
      (hcall : assumed ≠ [] → c.isParCall) (rest : Interspersed s commands filled) :
      Interspersed s (c :: commands) (c :: (assumed ++ filled))

theorem assumes_of_mem_fill {span : Span} {conditions : List Expr} {ids : List CommandId}
    (hids : ∀ id ∈ ids, s.command.toNat ≤ id.index)
    (h : a ∈ fill (conditions.map (.assumed span)) ids) : s.Assumes a := by
  induction conditions generalizing ids with
  | nil => exact absurd h List.not_mem_nil
  | cons condition rest ih =>
    cases ids with
    | nil => exact absurd h List.not_mem_nil
    | cons id ids =>
      rw [List.map_cons, fill] at h
      rcases List.mem_cons.mp h with rfl | h
      · exact ⟨hids id List.mem_cons_self, condition, rfl⟩
      · exact ih (fun id hid ↦ hids id (List.mem_cons_of_mem _ hid)) h

/-- The command that a slot keeps. -/
def Slot.kept? : Slot → Option Command
  | kept c => some c
  | assumed _ _ => none

/-- The identifiers after filling are those of kept commands and those that were given. -/
theorem map_id_fill_perm {slots : List Slot} {ids : List CommandId}
    (h : ids.length = assumptions slots) : ((fill slots ids).map Command.id).Perm
      ((slots.filterMap Slot.kept?).map Command.id ++ ids) := by
  induction slots generalizing ids with
  | nil =>
    obtain rfl : ids = [] := List.length_eq_zero_iff.mp h
    exact .nil
  | cons slot rest ih =>
    cases slot with
    | kept c =>
      rw [assumptions_cons_kept] at h
      exact (ih h).cons c.id
    | assumed span condition =>
      rw [assumptions_cons_assumed] at h
      cases ids with
      | nil => cases h
      | cons id ids => exact ((ih (Nat.succ.inj h)).cons id).trans List.perm_middle.symm

namespace Instrumenter

/-- Filling the places after parallel calls puts new assumptions there. -/
theorem interspersed_fill {commands : List Command} {ids : List CommandId}
    (hlength : ids.length = assumptions (commands.flatMap t.slotsAfter))
    (hids : ∀ id ∈ ids, s.command.toNat ≤ id.index) :
    Interspersed s commands (fill (commands.flatMap t.slotsAfter) ids) := by
  induction commands generalizing ids with
  | nil => exact .nil
  | cons c rest ih =>
    rw [List.flatMap_cons, assumptions_append] at hlength
    have hfirst : (ids.take (assumptions (t.slotsAfter c))).length =
        assumptions (t.slotsAfter c) := by
      rw [List.length_take, hlength]
      omega
    have hrest : (ids.drop (assumptions (t.slotsAfter c))).length =
        assumptions (rest.flatMap t.slotsAfter) := by
      rw [List.length_drop, hlength]
      omega
    rw [List.flatMap_cons, ← List.take_append_drop (assumptions (t.slotsAfter c)) ids,
      fill_append hfirst]
    refine .cons (fun a ha ↦ assumes_of_mem_fill (fun id hid ↦ ?_) ha) (fun hsome ↦ ?_)
      (ih hrest fun id hid ↦ hids id (List.mem_of_mem_drop hid))
    · exact hids id (List.mem_of_mem_take hid)
    · by_contra hcall
      refine hsome ?_
      rw [conditionsAfter, if_neg hcall]
      rfl

/-- The places in a block: at its start, if it is one of the given headers, and after its parallel
calls. -/
def places (t : Instrumenter) (headers : List BlockId) (b : Block) : List Slot :=
  (if b.id ∈ headers then t.headerSlots b else []) ++ t.bodySlots b

/-- A block with its places filled, as it is left in the implementation. -/
def place (t : Instrumenter) (imp : Implementation) (headers : List BlockId)
    (ids : BlockId → List CommandId) (b : Block) : Block :=
  { b with
    commands := fill (t.places headers b) (ids b.id)
    predecessors := imp.prune.predecessorsOf b.id }

theorem id_place (b : Block) : (t.place imp headers ids b).id = b.id := rfl

theorem transfer_place (b : Block) : (t.place imp headers ids b).transfer = b.transfer := rfl

/-- The commands of a block with its places filled are interspersed with new assumptions, in front
of which there may be others if the block is a header. -/
theorem exists_interspersed (imp : Implementation)
    (hlength : (ids b.id).length = assumptions (t.places headers b))
    (hids : ∀ id ∈ ids b.id, s.command.toNat ≤ id.index) :
    ∃ front filled, (t.place imp headers ids b).commands = front ++ filled ∧
      (∀ a ∈ front, s.Assumes a) ∧ (front ≠ [] → b.id ∈ headers) ∧
      Interspersed s b.commands filled := by
  have hslots : (if b.id ∈ headers then t.headerSlots b else []) =
      (if b.id ∈ headers then t.conditionsAt b.id else []).map (.assumed b.span) := by
    split_ifs <;> rfl
  rw [places, assumptions_append] at hlength
  generalize hcount : assumptions (if b.id ∈ headers then t.headerSlots b else []) = count
    at hlength
  have hfront : ((ids b.id).take count).length =
      assumptions (if b.id ∈ headers then t.headerSlots b else []) := by
    rw [List.length_take, hlength, hcount]
    omega
  have hrest : ((ids b.id).drop count).length = assumptions (t.bodySlots b) := by
    rw [List.length_drop, hlength]
    omega
  refine ⟨fill (if b.id ∈ headers then t.headerSlots b else []) ((ids b.id).take count),
    fill (t.bodySlots b) ((ids b.id).drop count), ?_, fun a ha ↦ ?_, fun hsome ↦ ?_,
    interspersed_fill hrest fun id hid ↦ hids id (List.mem_of_mem_drop hid)⟩
  · rw [← fill_append hfront, List.take_append_drop]
    rfl
  · rw [hslots] at ha
    exact assumes_of_mem_fill (fun id hid ↦ hids id (List.mem_of_mem_take hid)) ha
  · by_contra hheader
    refine hsome ?_
    rw [if_neg hheader]
    rfl

/-- The commands that are kept are those of the block. -/
theorem filterMap_kept?_places : (t.places headers b).filterMap Slot.kept? = b.commands := by
  have hassumed : ∀ (span : Span) (conditions : List Expr),
      (conditions.map (Slot.assumed span)).filterMap Slot.kept? = [] := by
    intro span conditions
    rw [List.filterMap_map]
    exact List.filterMap_eq_nil_iff.mpr fun _ _ ↦ rfl
  have hfront : (if b.id ∈ headers then t.headerSlots b else []).filterMap Slot.kept? = [] := by
    split_ifs
    · exact hassumed ..
    · rfl
  have hbody : ∀ commands : List Command,
      (commands.flatMap t.slotsAfter).filterMap Slot.kept? = commands := by
    intro commands
    induction commands with
    | nil => rfl
    | cons c rest ih =>
      rw [List.flatMap_cons, List.filterMap_append, ih, slotsAfter, List.filterMap_cons, hassumed]
      rfl
  rw [places, List.filterMap_append, hfront, List.nil_append]
  exact hbody b.commands

theorem map_id_commands_place_perm
    (hlength : (ids b.id).length = assumptions (t.places headers b)) :
    ((t.place imp headers ids b).commands.map Command.id).Perm
      (b.commands.map Command.id ++ ids b.id) := by
  have hperm := map_id_fill_perm hlength
  rwa [filterMap_kept?_places] at hperm

/-! ### The reachable blocks, filled -/

/-- The reachable blocks of an implementation with their places filled. -/
def placed (t : Instrumenter) (imp : Implementation) (headers : List BlockId)
    (ids : BlockId → List CommandId) : Implementation :=
  imp.prune.mapBlocks (t.place imp headers ids)

theorem blockIds_placed : (t.placed imp headers ids).blockIds = imp.prune.blockIds :=
  Implementation.blockIds_mapBlocks id_place

theorem ins_placed : (t.placed imp headers ids).ins = imp.ins := by
  rw [placed, Implementation.mapBlocks_prune]

theorem entry?_placed : Implementation.entry? (t.placed imp headers ids) = imp.entry? :=
  (Implementation.entry?_mapBlocks id_place).trans (Implementation.entry?_prune imp)

theorem mem_blocks_placed {d : Block} : d ∈ (t.placed imp headers ids).blocks ↔
    ∃ b ∈ imp.blocks, imp.Reachable b.id ∧ t.place imp headers ids b = d := by
  rw [placed, Implementation.mapBlocks_prune]
  simp only [List.mem_map, List.mem_filter, decide_eq_true_iff, and_assoc]

theorem block?_placed {id : BlockId} (h : imp.Reachable id) :
    (t.placed imp headers ids).block? id = (imp.block? id).map (t.place imp headers ids) := by
  rw [placed, Implementation.block?_mapBlocks id_place, Implementation.block?_prune h]

theorem targetsOf_placed {id : BlockId} (h : imp.Reachable id) :
    (t.placed imp headers ids).targetsOf id = imp.targetsOf id := by
  rw [placed, Implementation.targetsOf_mapBlocks id_place transfer_place,
    Implementation.targetsOf_prune h]

/-- Filled blocks lead where the blocks led. -/
theorem walk_placed_iff {entry id : BlockId} {left : List BlockId}
    (hentry : imp.entry? = some entry) :
    Walk (t.placed imp headers ids).targetsOf entry left id ↔ Walk imp.targetsOf entry left id := by
  refine walk_iff_of_agree (fun b hb v ↦ ?_) (.refl entry)
  rw [targetsOf_placed ((Implementation.reachable_iff hentry).mpr hb)]

theorem reachable_placed_iff {id : BlockId} :
    (t.placed imp headers ids).Reachable id ↔ imp.Reachable id := by
  unfold Implementation.Reachable
  rw [entry?_placed]
  exact exists_congr fun entry ↦ and_congr_right fun hentry ↦
    exists_congr fun left ↦ walk_placed_iff hentry

/-! ### Both verdicts -/

/-- How many assumptions a pass makes: those after the parallel calls of all blocks, of the blocks
that it removes too, and those at the loop headers unless it ends with an error. -/
def demand (t : Instrumenter) (imp : Implementation) (s : Supply) : Nat :=
  assumptions (imp.blocks.flatMap t.bodySlots) +
    if (t.instrument imp s).error? = none then
      assumptions ((imp.blocks.filter (imp.IsHeader ·.id)).flatMap t.headerSlots)
    else 0

/-- How a pass leaves an implementation: with the places of its reachable blocks filled under
identifiers taken from the supply. Headers count if every loop has one, and only then there is no
error. -/
structure Leaves (t : Instrumenter) (imp : Implementation) (s : Supply) (headers : List BlockId)
    (ids : BlockId → List CommandId) : Prop where
  implementation_eq : (t.instrument imp s).implementation = t.placed imp headers ids
  supply_eq : (t.instrument imp s).supply = s.skipCommands (t.demand imp s)
  mem_headers : ∀ b, b ∈ headers ↔ imp.IsHeader b ∧ ¬ imp.HasUnheadedLoop
  error?_eq_some : imp.HasUnheadedLoop → (t.instrument imp s).error? = some ⟨imp.name, imp.span⟩
  error?_eq_none : ¬ imp.HasUnheadedLoop → (t.instrument imp s).error? = none
  length_eq : ∀ b ∈ imp.prune.blocks, (ids b.id).length = assumptions (t.places headers b)
  subperm : List.Subperm (imp.prune.blocks.flatMap fun b ↦ ids b.id)
    (s.nextCommands (t.demand imp s))

/-- How a pass leaves an implementation if the command counter does not pass its greatest value: all
identifiers that are filled in are different and new. -/
structure LeavesNew (t : Instrumenter) (imp : Implementation) (s : Supply) (headers : List BlockId)
    (ids : BlockId → List CommandId) : Prop extends t.Leaves imp s headers ids where
  nodup : (imp.prune.blocks.flatMap fun b ↦ ids b.id).Nodup
  new : ∀ b ∈ imp.prune.blocks, ∀ id ∈ ids b.id, s.command.toNat ≤ id.index
  issued : ∀ b ∈ imp.prune.blocks, ∀ id ∈ ids b.id,
    id.index < (t.instrument imp s).supply.command.toNat

theorem Leaves.mem_nextCommands (h : t.Leaves imp s headers ids) (hb : b ∈ imp.prune.blocks) :
    ∀ id ∈ ids b.id, id ∈ s.nextCommands (t.demand imp s) :=
  fun _ hid ↦ h.subperm.subset (List.mem_flatMap.mpr ⟨b, hb, hid⟩)

theorem Leaves.leavesNew (h : t.Leaves imp s headers ids)
    (hroom : s.HasCommands (t.demand imp s)) : t.LeavesNew imp s headers ids where
  toLeaves := h
  nodup := Supply.nodup_of_subperm hroom h.subperm
  new _ hb id hid := ((Supply.mem_nextCommands hroom).mp (h.mem_nextCommands hb id hid)).1
  issued _ hb id hid := by
    rw [h.supply_eq]
    exact ((Supply.mem_nextCommands hroom).mp (h.mem_nextCommands hb id hid)).2

section Leaves

variable (hids : imp.blockIds.Nodup)

include hids

/-- With either verdict the second stage visits headers, all or none. -/
theorem exists_headers : ∃ headers : List BlockId, headers.Nodup ∧
    (∀ b, b ∈ headers ↔ imp.IsHeader b ∧ ¬ imp.HasUnheadedLoop) ∧
    (t.instrument imp s).implementation = (t.atHeaders headers (t.withCalls imp s)).1 ∧
    (t.instrument imp s).supply = (t.atHeaders headers (t.withCalls imp s)).2 ∧
    (imp.HasUnheadedLoop → (t.instrument imp s).error? = some ⟨imp.name, imp.span⟩) ∧
    (¬ imp.HasUnheadedLoop → (t.instrument imp s).error? = none) := by
  by_cases h : imp.HasUnheadedLoop
  · refine ⟨[], List.nodup_nil, fun b ↦ iff_of_false List.not_mem_nil fun hb ↦ hb.2 h, ?_, ?_,
      fun _ ↦ ?_, fun hnot ↦ absurd h hnot⟩
    · rw [instrument_eq_of_hasUnheadedLoop hids h]
      rfl
    · rw [instrument_eq_of_hasUnheadedLoop hids h]
      rfl
    · rw [instrument_eq_of_hasUnheadedLoop hids h]
  · obtain ⟨headers, hnodup, hheaders, hresult⟩ :=
      instrument_eq_of_not_hasUnheadedLoop (t := t) (s := s) hids h
    refine ⟨headers, hnodup, fun b ↦ (hheaders b).trans (and_iff_left h).symm, ?_, ?_,
      fun hloop ↦ absurd hloop h, fun _ ↦ ?_⟩
    · rw [hresult]
    · rw [hresult]
    · rw [hresult]

/-- A pass leaves the reachable blocks with their places filled, and takes the identifiers that are
filled in from its supply. -/
theorem exists_leaves (t : Instrumenter) (s : Supply) :
    ∃ headers ids, t.Leaves imp s headers ids := by
  obtain ⟨headers, hnodup, hheaders, hresult, hsupply, herror, hnone⟩ :=
    exists_headers (t := t) (s := s) hids
  have hreach : ∀ b, b ∈ headers → imp.Reachable b := fun b hb ↦ ((hheaders b).mp hb).1.reachable
  obtain ⟨ids, hstages, hlength, hsubperm⟩ :=
    exists_stages (fun b ↦ Iff.refl (b ∈ headers)) hreach hids hnodup t s
  have hdemand : assumptions (imp.blocks.flatMap t.bodySlots) +
      (headers.flatMap t.conditionsAt).length = t.demand imp s := by
    rw [demand]
    refine congrArg _ ?_
    by_cases hloop : imp.HasUnheadedLoop
    · have hempty : headers = [] :=
        List.eq_nil_iff_forall_not_mem.mpr fun b hb ↦ ((hheaders b).mp hb).2 hloop
      rw [herror hloop, if_neg (Option.some_ne_none _), hempty]
      rfl
    · rw [hnone hloop, if_pos rfl, assumptions_headerSlots
        (fun b ↦ (hheaders b).trans (and_iff_left hloop)) hids hnodup]
  rw [hdemand] at hstages hsubperm
  rw [hstages] at hresult hsupply
  rw [← Implementation.blocks_prune] at hsubperm
  exact ⟨headers, ids, hresult, hsupply, hheaders, herror, hnone,
    fun b hb ↦ hlength b (Implementation.mem_blocks_prune_iff.mp hb).1, hsubperm⟩

end Leaves

end Instrumenter

end OwnershipFlow
