import OwnershipFlow.Proofs.Correspondence
import OwnershipFlow.Proofs.Preservation

/-!
# Passes over copies

A pass over a copy whose links are on record does what a pass over its source does, if no counter
passed its greatest value while the copy was made (`instrument_copy_simulates`). Otherwise a point
of the copy may carry the number of a point of the source, and links lead to the wrong points. The
copy renames its source, so loops without headers and loop headers correspond
(`hasUnheadedLoop_iff`, `isHeader_iff`), whatever order the two passes visit the headers in. At
points that are linked the same is assumed, as the copy's point stands for what the source's point
stands for (`disjointnessAt_onCopy`). The places in linked blocks therefore correspond
(`forall₂_places`), and so does what they are filled with (`forall₂_fill`).
-/

set_option autoImplicit false
set_option relaxedAutoImplicit false

namespace OwnershipFlow

variable {t : Instrumenter} {imp derived : Implementation} {s u u' : Supply} {r : BlockId → BlockId}
  {b d : Block} {c e : Command} {n m : Node}

/-! ### Loops without headers -/

namespace Implementation.Renames

variable (h : imp.Renames r derived) (hids : imp.blockIds.Nodup) (hids' : derived.blockIds.Nodup)

include h hids hids'

/-- The loops without headers of two implementations correspond. -/
theorem hasUnheadedLoop_iff : derived.HasUnheadedLoop ↔ imp.HasUnheadedLoop := by
  have hentry' := h.entry?_eq
  cases hentry : imp.entry? with
  | none =>
    rw [hentry, Option.map_none] at hentry'
    exact iff_of_false (fun ⟨_, _, hreach, _⟩ ↦ not_reachable hentry' hreach)
      fun ⟨_, _, hreach, _⟩ ↦ not_reachable hentry hreach
  | some entry =>
    rw [hentry, Option.map_some] at hentry'
    rw [Implementation.hasUnheadedLoop_iff hentry, Implementation.hasUnheadedLoop_iff hentry',
      (h.edgeImage hids hids').headedLoops_iff (entry_mem_blockIds hentry)]

end Implementation.Renames

/-! ### What is assumed at linked points -/

namespace Instrumenter

/-- An instrumenter for a copy, with the links of the copy on record. -/
def onCopy (t : Instrumenter) (imp : Implementation) (s : Supply) : Instrumenter :=
  { t with origins := t.origins.record ((imp.copy s).1.copyPairs imp) }

theorem disjointnessAt_onCopy {point point' : Point}
    (h : (t.onCopy imp s).localScope point' = t.localScope point) :
    (t.onCopy imp s).disjointnessAt point' true = t.disjointnessAt point true := by
  unfold disjointnessAt scope
  rw [h]
  rfl

section Conditions

variable (hids : imp.blockIds.Nodup) (hissued : imp.IssuedBy s) (hfits : imp.FitsIn s)
  (horigins : t.origins.LeadsTo s.Issued)

include hids hissued hfits horigins

/-- Linked points stand for the same. -/
theorem resolve_onCopy (hlink : (n, m) ∈ (imp.copy s).1.copyPairs imp) :
    (t.onCopy imp s).origins.resolve n = t.origins.resolve m := by
  have hlength := (Implementation.copy_renames hids hfits hissued.2).length_nodes
  have hget :=
    Implementation.get?_record_copyPairs_of_mem hids hfits hlength hissued.1 horigins hlink
  rw [Origins.resolve, onCopy, hget, Option.getD_some]

theorem flowScope_onCopy (hlink : (n, m) ∈ (imp.copy s).1.copyPairs imp) :
    (t.onCopy imp s).flowScope n = t.flowScope m := by
  unfold flowScope
  rw [resolve_onCopy hids hissued hfits horigins hlink]
  rfl

theorem conditionsAt_onCopy (hb : b.CopyOf imp (imp.copy s).1 r d) :
    (t.onCopy imp s).conditionsAt d.id = t.conditionsAt b.id :=
  disjointnessAt_onCopy (flowScope_onCopy hids hissued hfits horigins hb.link)

theorem conditionsAfter_onCopy (hc : c.CopyOf imp (imp.copy s).1 e) :
    (t.onCopy imp s).conditionsAfter e = t.conditionsAfter c := by
  have hcall : e.isParCall = c.isParCall := congrArg Action.isParCall hc.same.1
  have hsame : (t.onCopy imp s).disjointnessAt (.command e.id) true =
      t.disjointnessAt (.command c.id) true :=
    disjointnessAt_onCopy (flowScope_onCopy hids hissued hfits horigins hc.link)
  rw [conditionsAfter, hcall, hsame, conditionsAfter]

end Conditions

end Instrumenter

/-! ### Places -/

/-- A slot that keeps the copy of what another keeps, or is a place for the same assumption. -/
inductive Slot.Corresponds (imp derived : Implementation) : Slot → Slot → Prop
  | kept {c e : Command} (hmem : c ∈ imp.commands) (h : c.CopyOf imp derived e) :
      Corresponds imp derived (.kept c) (.kept e)
  | assumed (span : Span) (condition : Expr) :
      Corresponds imp derived (.assumed span condition) (.assumed span condition)

theorem Slot.forall₂_assumed {span : Span} {conditions : List Expr} :
    List.Forall₂ (Slot.Corresponds imp derived) (conditions.map (.assumed span))
      (conditions.map (.assumed span)) := by
  refine List.forall₂_same.mpr fun slot hslot ↦ ?_
  obtain ⟨condition, -, rfl⟩ := List.mem_map.mp hslot
  exact .assumed span condition

namespace Instrumenter

variable {headers headers' : List BlockId}

section Places

variable (hids : imp.blockIds.Nodup) (hissued : imp.IssuedBy s) (hfits : imp.FitsIn s)
  (horigins : t.origins.LeadsTo s.Issued)

include hids hissued hfits horigins

theorem forall₂_slotsAfter (hmem : c ∈ imp.commands) (hc : c.CopyOf imp (imp.copy s).1 e) :
    List.Forall₂ (Slot.Corresponds imp (imp.copy s).1) (t.slotsAfter c)
      ((t.onCopy imp s).slotsAfter e) := by
  unfold slotsAfter
  rw [conditionsAfter_onCopy hids hissued hfits horigins hc, hc.same.2]
  exact .cons (.kept hmem hc) Slot.forall₂_assumed

/-- The places in a copied block correspond to those in the block that it was copied from. -/
theorem forall₂_places (hb : b.CopyOf imp (imp.copy s).1 r d)
    (hheaders : d.id ∈ headers' ↔ b.id ∈ headers) :
    List.Forall₂ (Slot.Corresponds imp (imp.copy s).1) (t.places headers b)
      ((t.onCopy imp s).places headers' d) := by
  have hfront : List.Forall₂ (Slot.Corresponds imp (imp.copy s).1)
      (if b.id ∈ headers then t.headerSlots b else [])
      (if d.id ∈ headers' then (t.onCopy imp s).headerSlots d else []) := by
    simp only [hheaders]
    split_ifs
    · unfold headerSlots
      rw [conditionsAt_onCopy hids hissued hfits horigins hb, hb.same.span]
      exact Slot.forall₂_assumed
    · exact .nil
  have hcommands : List.Forall₂ (fun c e ↦ c ∈ imp.commands ∧ c.CopyOf imp (imp.copy s).1 e)
      b.commands d.commands :=
    (List.forall₂_and_left _ _).mpr ⟨fun c hc ↦ Implementation.mem_commands hb.mem hc, hb.commands⟩
  exact List.rel_append hfront (List.rel_flatMap hcommands fun c e hce ↦
    forall₂_slotsAfter hids hissued hfits horigins hce.1 hce.2)

end Places

end Instrumenter

/-! ### Results -/

/-- Commands of two results that correspond: a command and its copy, or assumptions of the same
condition at the same place in the source text that the two passes have put in, under identifiers
that they have drawn. -/
inductive Command.Corresponds (imp derived : Implementation) (drawn drawn' : List CommandId) :
    Command → Command → Prop
  | copied {c e : Command} (hmem : c ∈ imp.commands) (h : c.CopyOf imp derived e) :
      Corresponds imp derived drawn drawn' c e
  | assumed {c e : Command} (condition : Expr) (hdrawn : c.id ∈ drawn) (hdrawn' : e.id ∈ drawn')
      (haction : c.action = .assume condition) (haction' : e.action = .assume condition)
      (hspan : e.span = c.span) : Corresponds imp derived drawn drawn' c e

/-- A block and the block that it is linked to. -/
def Implementation.Linked (imp derived : Implementation) (b d : BlockId) : Prop :=
  (Node.block d, Node.block b) ∈ derived.copyPairs imp

/-- Targets that correspond: linked blocks, or the same target if it names no block. -/
inductive Implementation.Targeted (imp derived : Implementation) : BlockId → BlockId → Prop
  | block {b d : BlockId} (h : imp.Linked derived b d) : Targeted imp derived b d
  | other {b : BlockId} (h : b ∉ imp.blockIds) : Targeted imp derived b b

/-- Transfers that correspond: returns, or transfers with corresponding targets. -/
inductive Transfer.Corresponds (imp derived : Implementation) : Transfer → Transfer → Prop
  | ret : Corresponds imp derived .ret .ret
  | goto {targets targets' : List BlockId}
      (h : List.Forall₂ (imp.Targeted derived) targets targets') :
      Corresponds imp derived (.goto targets) (.goto targets')

/-- Blocks of two results that correspond in all their parts. -/
structure Block.Corresponds (imp derived : Implementation) (drawn drawn' : List CommandId)
    (b d : Block) : Prop where
  id : imp.Linked derived b.id d.id
  label : d.label = b.label
  span : d.span = b.span
  commands : List.Forall₂ (Command.Corresponds imp derived drawn drawn') b.commands d.commands
  transfer : Transfer.Corresponds imp derived b.transfer d.transfer
  predecessors : List.Forall₂ (imp.Linked derived) b.predecessors d.predecessors

/-- Corresponding places are filled with corresponding commands. -/
theorem forall₂_fill {slots slots' : List Slot} {ids ids' drawn drawn' : List CommandId}
    (h : List.Forall₂ (Slot.Corresponds imp derived) slots slots')
    (hlength : ids.length = assumptions slots) (hlength' : ids'.length = assumptions slots')
    (hdrawn : ∀ id ∈ ids, id ∈ drawn) (hdrawn' : ∀ id ∈ ids', id ∈ drawn') :
    List.Forall₂ (Command.Corresponds imp derived drawn drawn') (fill slots ids)
      (fill slots' ids') := by
  induction h generalizing ids ids' with
  | nil => exact .nil
  | cons hslot _ ih =>
    cases hslot with
    | kept hmem hc =>
      rw [assumptions_cons_kept] at hlength hlength'
      exact .cons (.copied hmem hc) (ih hlength hlength' hdrawn hdrawn')
    | assumed span condition =>
      rw [assumptions_cons_assumed] at hlength hlength'
      cases ids with
      | nil => cases hlength
      | cons id ids =>
        cases ids' with
        | nil => cases hlength'
        | cons id' ids' =>
          rw [List.forall_mem_cons] at hdrawn hdrawn'
          exact .cons (.assumed condition hdrawn.1 hdrawn'.1 rfl rfl rfl)
            (ih (Nat.succ.inj hlength) (Nat.succ.inj hlength') hdrawn.2 hdrawn'.2)

/-- A transfer with new names corresponds to what it was before. -/
theorem Transfer.corresponds_rename {transfer : Transfer}
    (h : ∀ x ∈ transfer.targets, imp.Targeted derived x (r x)) :
    Transfer.Corresponds imp derived transfer (transfer.rename r) := by
  cases transfer with
  | ret => exact .ret
  | goto targets =>
    exact .goto (List.forall₂_map_right_iff.mpr (List.forall₂_same.mpr h))

theorem Implementation.Renames.mem_successors_iff (h : imp.Renames r derived)
    (hids' : derived.blockIds.Nodup) (hb : b ∈ imp.blocks) (hsame : b.SameAs r d) {x : BlockId}
    (hx : x ∈ imp.blockIds) : r x ∈ d.successors ↔ x ∈ b.successors := by
  have hsuccessors : d.successors = b.successors.map r := by
    unfold Block.successors
    rw [hsame.transfer, Transfer.targets_rename]
  rw [hsuccessors]
  constructor
  · intro hmem
    obtain ⟨y, hy, heq⟩ := List.mem_map.mp hmem
    exact h.eq_of_target hids' hb hy hx heq ▸ hy
  · exact List.mem_map_of_mem

namespace Implementation

section Copies

variable (hids : imp.blockIds.Nodup) (hissued : imp.IssuedBy s) (hfits : imp.FitsIn s)

/-- Blocks are linked to their new names, and other targets stay as they are. -/
theorem targeted_freshName (x : BlockId) :
    imp.Targeted (imp.copy s).1 x (imp.freshName s x) := by
  by_cases hx : x ∈ imp.blockIds
  · obtain ⟨b, hb, rfl⟩ := List.mem_map.mp hx
    obtain ⟨d, -, hbd⟩ := exists_of_forall₂ (forall₂_copyOf_copy (s := s)) hb
    exact hbd.same.id ▸ .block hbd.link
  · rw [freshName_of_not_mem hx]
    exact .other hx

include hids hissued hfits

/-- The reachable blocks of a copy are linked to those of its source, place by place. -/
theorem forall₂_prune_copy :
    List.Forall₂ (Block.CopyOf imp (imp.copy s).1 (imp.freshName s)) imp.prune.blocks
      (imp.copy s).1.prune.blocks := by
  rw [blocks_prune, blocks_prune]
  refine List.rel_filter (fun b d hbd ↦ ?_) forall₂_copyOf_copy
  have hreach := (copy_renames hids hfits hissued.2).reachable_iff hids
    (nodup_blockIds_copy hids hfits) (List.mem_map_of_mem hbd.mem)
  beta_reduce
  rw [decide_eq_true_iff, decide_eq_true_iff, hbd.same.id, hreach]

/-- The blocks that lead to a copied block are linked to those that lead to its source. -/
theorem forall₂_predecessorsOf_copy (hbd : b.CopyOf imp (imp.copy s).1 (imp.freshName s) d) :
    List.Forall₂ (imp.Linked (imp.copy s).1) (imp.prune.predecessorsOf b.id)
      ((imp.copy s).1.prune.predecessorsOf d.id) := by
  unfold predecessorsOf
  rw [List.forall₂_map_left_iff, List.forall₂_map_right_iff]
  refine (List.rel_filter (fun b' d' hbd' ↦ ?_) (forall₂_prune_copy hids hissued hfits)).imp
    fun _ _ hbd' ↦ hbd'.link
  have hmem := (copy_renames hids hfits hissued.2).mem_successors_iff
    (nodup_blockIds_copy hids hfits) hbd'.mem hbd'.same (List.mem_map_of_mem hbd.mem)
  beta_reduce
  rw [List.contains_iff_mem, List.contains_iff_mem, hbd.same.id, hmem]

end Copies

end Implementation

namespace Instrumenter

variable {headers headers' : List BlockId} {ids ids' : BlockId → List CommandId}

/-- As long as the command counter does not pass its greatest value, the identifiers drawn from now
on are none of those handed out before. -/
theorem not_mem_commands_of_drawn {count : Nat} (hroom : u.HasCommands count)
    (hold : ∀ c ∈ imp.commands, c.id.index < u.command.toNat) :
    ∀ id ∈ u.nextCommands count, id ∉ imp.commands.map Command.id := by
  intro id hid hin
  obtain ⟨c, hc, rfl⟩ := List.mem_map.mp hin
  exact absurd ((Supply.mem_nextCommands hroom).mp hid).1 (Nat.not_le.mpr (hold c hc))

section Copies

variable (hids : imp.blockIds.Nodup) (hissued : imp.IssuedBy s) (hfits : imp.FitsIn s)
  (horigins : t.origins.LeadsTo s.Issued) (h : t.Leaves imp u headers ids)
  (h' : (t.onCopy imp s).Leaves (imp.copy s).1 u' headers' ids')

include hids hissued hfits h h'

/-- The two passes place assumptions at corresponding headers. -/
theorem mem_headers_copy_iff (hbd : b.CopyOf imp (imp.copy s).1 (imp.freshName s) d) :
    d.id ∈ headers' ↔ b.id ∈ headers := by
  have hids' := Implementation.nodup_blockIds_copy hids hfits
  have hrenames := Implementation.copy_renames hids hfits hissued.2
  have hb : b.id ∈ imp.blockIds := List.mem_map_of_mem hbd.mem
  rw [h.mem_headers, h'.mem_headers, hbd.same.id, hrenames.isHeader_iff hids hids' hb,
    hrenames.hasUnheadedLoop_iff hids hids']

include horigins

/-- A block that is left of the copy corresponds to what is left of the block it was copied from. -/
theorem corresponds_place (hb : b ∈ imp.prune.blocks) (hd : d ∈ (imp.copy s).1.prune.blocks)
    (hbd : b.CopyOf imp (imp.copy s).1 (imp.freshName s) d) :
    Block.Corresponds imp (imp.copy s).1 (u.nextCommands (t.demand imp u))
      (u'.nextCommands ((t.onCopy imp s).demand (imp.copy s).1 u')) (t.place imp headers ids b)
      ((t.onCopy imp s).place (imp.copy s).1 headers' ids' d) where
  id := hbd.link
  label := hbd.same.label
  span := hbd.same.span
  commands := forall₂_fill
    (forall₂_places hids hissued hfits horigins hbd
      (mem_headers_copy_iff hids hissued hfits h h' hbd))
    (h.length_eq b hb) (h'.length_eq d hd) (h.mem_nextCommands hb) (h'.mem_nextCommands hd)
  transfer := by
    rw [transfer_place, transfer_place, hbd.same.transfer]
    exact Transfer.corresponds_rename fun x _ ↦ Implementation.targeted_freshName x
  predecessors := Implementation.forall₂_predecessorsOf_copy hids hissued hfits hbd

end Copies

/-- A pass over a copy does what a pass over its source does. All block identifiers of the source
are distinct, its identifiers and those that the record leads to have been handed out before the
copy is made, and no counter passes its greatest value meanwhile. Whatever the supplies of the two
passes hold, both end without an error or both with the same one, and the blocks that they leave
correspond place by place, in their commands, their transfers and their recorded predecessors. If
what has been handed out stays so and the command counter does not pass its greatest value, the
assumptions stand under identifiers of their own. -/
theorem instrument_copy_simulates (t : Instrumenter) (imp : Implementation) (s u u' : Supply)
    (hids : imp.blockIds.Nodup) (hissued : imp.IssuedBy s) (horigins : t.origins.LeadsTo s.Issued)
    (hfits : imp.FitsIn s) :
    ((t.onCopy imp s).instrument (imp.copy s).1 u').error? = (t.instrument imp u).error? ∧
    ((t.instrument imp u).error? = none ∨
      (t.instrument imp u).error? = some ⟨imp.name, imp.span⟩) ∧
    List.Forall₂ (Block.Corresponds imp (imp.copy s).1 (u.nextCommands (t.demand imp u))
        (u'.nextCommands ((t.onCopy imp s).demand (imp.copy s).1 u')))
      (t.instrument imp u).implementation.blocks
      ((t.onCopy imp s).instrument (imp.copy s).1 u').implementation.blocks ∧
    (s.command ≤ u.command → u.HasCommands (t.demand imp u) →
      ∀ id ∈ u.nextCommands (t.demand imp u), id ∉ imp.commands.map Command.id) ∧
    ((imp.copy s).2.command ≤ u'.command →
      u'.HasCommands ((t.onCopy imp s).demand (imp.copy s).1 u') →
      ∀ id ∈ u'.nextCommands ((t.onCopy imp s).demand (imp.copy s).1 u'),
        id ∉ (imp.copy s).1.commands.map Command.id) := by
  have hids' : (imp.copy s).1.blockIds.Nodup := Implementation.nodup_blockIds_copy hids hfits
  have hrenames := Implementation.copy_renames hids hfits hissued.2
  have hloops := hrenames.hasUnheadedLoop_iff hids hids'
  obtain ⟨headers, ids, h⟩ := exists_leaves hids t u
  obtain ⟨headers', ids', h'⟩ := exists_leaves hids' (t.onCopy imp s) u'
  refine ⟨?_, ?_, ?_, fun hu hroom ↦ ?_, fun hu' hroom ↦ ?_⟩
  · by_cases hloop : imp.HasUnheadedLoop
    · rw [h.error?_eq_some hloop, h'.error?_eq_some (hloops.mpr hloop)]
      rfl
    · rw [h.error?_eq_none hloop, h'.error?_eq_none (mt hloops.mp hloop)]
  · by_cases hloop : imp.HasUnheadedLoop
    · exact .inr (h.error?_eq_some hloop)
    · exact .inl (h.error?_eq_none hloop)
  · have hprune := Implementation.forall₂_prune_copy hids hissued hfits
    rw [h.implementation_eq, h'.implementation_eq, placed, placed, Implementation.mapBlocks,
      Implementation.mapBlocks, List.forall₂_map_left_iff, List.forall₂_map_right_iff]
    refine List.forall₂_iff_zip.mpr ⟨hprune.length_eq, fun {b d} hzip ↦ ?_⟩
    obtain ⟨hb, hd⟩ := List.of_mem_zip hzip
    exact corresponds_place hids hissued hfits horigins h h' hb hd
      ((List.forall₂_iff_zip.mp hprune).2 hzip)
  · exact not_mem_commands_of_drawn hroom fun c hc ↦ Nat.lt_of_lt_of_le (hissued.index_lt c hc) hu
  · refine not_mem_commands_of_drawn hroom fun c hc ↦ Nat.lt_of_lt_of_le ?_ hu'
    exact (Implementation.mem_nodes_copy hids hfits
      (Implementation.command_mem_nodes_iff.mpr (List.mem_map_of_mem hc))).2

/-- Two loops, the first with the greater identifier, and a transfer to what is no block. A copy
numbers the loops the other way round. -/
def descending : Implementation where
  id := ⟨0⟩
  procedure := ⟨0⟩
  name := "descending"
  ins := []
  outs := []
  locals := []
  blocks :=
    [⟨⟨2⟩, "entry", [], .goto [⟨1⟩], [], .zero⟩,
      ⟨⟨1⟩, "first", [⟨⟨0⟩, .zero, .parCall []⟩], .goto [⟨1⟩, ⟨0⟩], [], .zero⟩,
      ⟨⟨0⟩, "second", [], .goto [⟨0⟩, ⟨9⟩], [], .zero⟩]
  span := .zero

theorem instrument_copy_simulates_descending : descending.blockIds.Nodup ∧
    descending.IssuedBy ⟨0, 1, 10, 1⟩ ∧ observer.origins.LeadsTo (Supply.Issued ⟨0, 1, 10, 1⟩) ∧
    descending.FitsIn ⟨0, 1, 10, 1⟩ ∧
    ((observer.onCopy descending ⟨0, 1, 10, 1⟩).instrument (descending.copy ⟨0, 1, 10, 1⟩).1
      ⟨0, 2, 13, 2⟩).error? = none ∧
    List.Forall₂ (fun b d ↦ (descending.Linked (descending.copy ⟨0, 1, 10, 1⟩).1) b.id d.id ∧
        d.commands.length = b.commands.length)
      (observer.instrument descending ⟨0, 1, 10, 1⟩).implementation.blocks
      ((observer.onCopy descending ⟨0, 1, 10, 1⟩).instrument (descending.copy ⟨0, 1, 10, 1⟩).1
        ⟨0, 2, 13, 2⟩).implementation.blocks := by
  have hissued : descending.IssuedBy ⟨0, 1, 10, 1⟩ := by decide
  have hfits : descending.FitsIn ⟨0, 1, 10, 1⟩ := by decide
  obtain ⟨herror, -, hblocks, -⟩ := instrument_copy_simulates observer descending ⟨0, 1, 10, 1⟩
    ⟨0, 1, 10, 1⟩ ⟨0, 2, 13, 2⟩ (by decide) hissued Origins.leadsTo_empty hfits
  have hnone : (observer.instrument descending ⟨0, 1, 10, 1⟩).error? = none := by decide +kernel
  exact ⟨by decide, hissued, Origins.leadsTo_empty, hfits, herror.trans hnone,
    hblocks.imp fun _ _ hbd ↦ ⟨hbd.id, hbd.commands.length_eq.symm⟩⟩

/-- A loop that is entered with nothing, and a block after it that has two variables. -/
def unwinding : Implementation where
  id := ⟨0⟩
  procedure := ⟨0⟩
  name := "unwinding"
  ins := []
  outs := []
  locals := [⟨0⟩, ⟨1⟩]
  blocks :=
    [⟨⟨0⟩, "loop", [⟨⟨0⟩, .zero, .assign [⟨0⟩, ⟨1⟩] []⟩], .goto [⟨0⟩, ⟨1⟩], [], .zero⟩,
      ⟨⟨1⟩, "exit", [], .ret, [], .zero⟩]
  span := .zero

/-- A program with that implementation, whose block counter stands at its greatest value. -/
def rewinding : Program :=
  .guarding unwinding ⟨0, 1, 4294967295, 1⟩

/-- The loop of a copy gets the greatest number and the block after it the number of the loop. Links
then lead from both of them to the block after the loop, and what is available there is assumed at
the start of the loop. -/
theorem instrument_copy_simulates_exhausted : unwinding.blockIds.Nodup ∧
    unwinding.IssuedBy rewinding.supply ∧
    rewinding.pass.origins.LeadsTo rewinding.supply.Issued ∧
    ((unwinding.copy rewinding.supply).1.blockIds = [⟨4294967295⟩, ⟨0⟩]) ∧
    (rewinding.pass.instrument unwinding
      (unwinding.copy rewinding.supply).2).implementation.blocks.map (·.commands.length) = [1, 0] ∧
    ((rewinding.pass.onCopy unwinding rewinding.supply).instrument
      (unwinding.copy rewinding.supply).1
      (unwinding.copy rewinding.supply).2).implementation.blocks.map (·.commands.length) =
        [2, 0] := by
  refine ⟨by decide, by decide, Origins.leadsTo_empty, ?_, ?_, ?_⟩
  all_goals decide +kernel

end Instrumenter

end OwnershipFlow
