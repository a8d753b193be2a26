import Mathlib.Data.List.Forall2
import OwnershipFlow.Proofs.Outcome

/-!
# Repeated passes

A pass over what an earlier pass has left places its assumptions once more (`repeatedly`). It finds
the same headers and comes to the same verdict, since removing blocks that cannot be reached and
adding commands moves no loop (`isHeader_prune_iff`, `isHeader_mapBlocks_iff`). It takes none of the
assumptions that it meets for a parallel call, so between what the block had at first each list of
assumptions is repeated (`rounds`).

One more pass puts one more copy in front of the copies that are there (`filledBy_rounds_succ`).
From this, what one more pass makes of an implementation (`Repeated.placed`) gives what any number
of them make of it (`exists_repeated`).
-/

set_option autoImplicit false
set_option relaxedAutoImplicit false

namespace OwnershipFlow

variable {t : Instrumenter} {imp q : Implementation} {s : Supply} {f : Block → Block}
  {headers : List BlockId} {ids : BlockId → List CommandId} {b : BlockId} {k : Nat}

/-! ### Commands at slots -/

/-- A command stands at a slot: the one that is kept, or an assumption of the condition under
whatever identifier. -/
inductive Slot.FilledBy : Slot → Command → Prop
  | kept (c : Command) : FilledBy (.kept c) c
  | assumed (span : Span) (condition : Expr) (id : CommandId) :
      FilledBy (.assumed span condition) ⟨id, span, .assume condition⟩

/-- Filling puts a command at every slot. -/
theorem filledBy_fill {slots : List Slot} {ids : List CommandId}
    (h : ids.length = assumptions slots) : List.Forall₂ Slot.FilledBy slots (fill slots ids) := by
  induction slots generalizing ids with
  | nil => exact .nil
  | cons slot rest ih =>
    cases slot with
    | kept c =>
      rw [assumptions_cons_kept] at h
      exact .cons (.kept c) (ih h)
    | assumed span condition =>
      rw [assumptions_cons_assumed] at h
      cases ids with
      | nil => cases h
      | cons id ids => exact .cons (.assumed span condition id) (ih (Nat.succ.inj h))

/-- Whatever stands at the second of two slots may stand at the first. -/
def Slot.Admits (first second : Slot) : Prop :=
  ∀ c, second.FilledBy c → first.FilledBy c

theorem filledBy_of_admits {first second : List Slot} {commands : List Command}
    (h : List.Forall₂ Slot.Admits first second)
    (hfilled : List.Forall₂ Slot.FilledBy second commands) :
    List.Forall₂ Slot.FilledBy first commands := by
  induction h generalizing commands with
  | nil => exact hfilled
  | cons hslot _ ih =>
    cases hfilled with
    | cons hc hrest => exact .cons (hslot _ hc) (ih hrest)

theorem admits_self (slots : List Slot) : List.Forall₂ Slot.Admits slots slots :=
  List.forall₂_same.mpr fun _ _ _ h ↦ h

/-- A block without its commands. -/
def Block.bare (b : Block) : Block :=
  { b with commands := [] }

namespace Instrumenter

/-! ### Rounds -/

/-- A command with the places after it, as they are after a number of passes. -/
def roundsAfter (t : Instrumenter) (k : Nat) (c : Command) : List Slot :=
  .kept c :: (List.replicate k ((t.conditionsAfter c).map (.assumed c.span))).flatten

/-- The places in a block after a number of passes: those at its start, if it is headed, and those
after each of its parallel calls, once for every pass. -/
def rounds (t : Instrumenter) (headed : Bool) (k : Nat) (b : Block) : List Slot :=
  (if headed then (List.replicate k (t.headerSlots b)).flatten else []) ++
    b.commands.flatMap (t.roundsAfter k)

/-- What one more pass makes of a slot: it adds the places after a kept command. -/
def again (t : Instrumenter) : Slot → List Slot
  | .kept c => t.slotsAfter c
  | .assumed span condition => [.assumed span condition]

theorem flatMap_again_of_assumed {slots : List Slot}
    (h : ∀ slot ∈ slots, slot.isAssumed = true) : slots.flatMap t.again = slots := by
  induction slots with
  | nil => rfl
  | cons slot rest ih =>
    rw [List.forall_mem_cons] at h
    rw [List.flatMap_cons, ih h.2]
    cases slot with
    | kept c => exact absurd h.1 Bool.false_ne_true
    | assumed span condition => rfl

theorem isAssumed_of_mem_replicate {span : Span} {conditions : List Expr} :
    ∀ slot ∈ (List.replicate k (conditions.map (Slot.assumed span))).flatten,
      slot.isAssumed = true := by
  intro slot hslot
  obtain ⟨round, hround, hslot⟩ := List.mem_flatten.mp hslot
  rw [List.eq_of_mem_replicate hround] at hslot
  obtain ⟨condition, -, rfl⟩ := List.mem_map.mp hslot
  rfl

theorem flatMap_again_roundsAfter {c : Command} :
    (t.roundsAfter k c).flatMap t.again = t.roundsAfter (k + 1) c := by
  rw [roundsAfter, List.flatMap_cons, flatMap_again_of_assumed isAssumed_of_mem_replicate,
    roundsAfter, List.replicate_succ, List.flatten_cons]
  rfl

theorem rounds_zero {headed : Bool} {block : Block} :
    t.rounds headed 0 block = block.commands.map .kept := by
  have hfront : (if headed then (List.replicate 0 (t.headerSlots block)).flatten else []) = [] := by
    split_ifs <;> rfl
  rw [rounds, hfront, List.nil_append, List.map_eq_flatMap]
  rfl

/-- One more pass adds the places at the start once more, and those after each kept command. -/
theorem rounds_succ {headed : Bool} {block : Block} : t.rounds headed (k + 1) block =
    (if headed then t.headerSlots block else []) ++
      (t.rounds headed k block).flatMap t.again := by
  have hcommands : (block.commands.flatMap (t.roundsAfter k)).flatMap t.again =
      block.commands.flatMap (t.roundsAfter (k + 1)) := by
    rw [List.flatMap_assoc]
    exact List.flatMap_congr fun c _ ↦ flatMap_again_roundsAfter
  rw [rounds, rounds, List.flatMap_append, hcommands, ← List.append_assoc]
  cases headed with
  | false => rfl
  | true =>
    simp only [if_true]
    rw [headerSlots, flatMap_again_of_assumed isAssumed_of_mem_replicate, List.replicate_succ,
      List.flatten_cons]

/-- The places in filled slots are those that one more pass fills: an assumption is no parallel
call. -/
theorem admits_again {slots : List Slot} {commands : List Command}
    (h : List.Forall₂ Slot.FilledBy slots commands) :
    List.Forall₂ Slot.Admits (slots.flatMap t.again) (commands.flatMap t.slotsAfter) := by
  refine List.rel_flatMap h fun slot c hc ↦ ?_
  cases hc with
  | kept => exact admits_self _
  | assumed span condition id =>
    -- No place comes after the assumption, and the assumption is kept where it stands.
    refine .cons (fun c hc ↦ ?_) .nil
    cases hc
    exact .assumed span condition id

/-- A block in which some rounds of places are filled has one more round of them filled after one
more pass. -/
theorem filledBy_rounds_succ {headed : Bool} {block : Block} {commands filled : List Command}
    (h : List.Forall₂ Slot.FilledBy (t.rounds headed k block) commands)
    (hfilled : List.Forall₂ Slot.FilledBy
      ((if headed then t.headerSlots block else []) ++ commands.flatMap t.slotsAfter) filled) :
    List.Forall₂ Slot.FilledBy (t.rounds headed (k + 1) block) filled := by
  rw [rounds_succ]
  exact filledBy_of_admits (List.rel_append (admits_self _) (admits_again h)) hfilled

/-! ### Passes over what passes have left -/

/-- What is left of an implementation after a number of passes, each with a supply of its own. -/
def repeatedly (t : Instrumenter) (imp : Implementation) (supplies : Nat → Supply) :
    Nat → Implementation
  | 0 => imp
  | k + 1 => (t.instrument (repeatedly t imp supplies k) (supplies k)).implementation

/-- An implementation is what a number of passes have left of another one: as far as it can be
reached, it consists of the blocks of the other one with as many rounds of places filled. -/
structure Repeated (t : Instrumenter) (imp : Implementation) (headed : BlockId → Bool) (k : Nat)
    (f : Block → Block) (q : Implementation) : Prop where
  nodup : q.blockIds.Nodup
  prune_eq : q.prune = imp.prune.mapBlocks f
  id_eq : ∀ b, (f b).id = b.id
  label_eq : ∀ b, (f b).label = b.label
  transfer_eq : ∀ b, (f b).transfer = b.transfer
  span_eq : ∀ b, (f b).span = b.span
  commands : ∀ b ∈ imp.prune.blocks,
    List.Forall₂ Slot.FilledBy (t.rounds (headed b.id) k b) (f b).commands

variable {headed : BlockId → Bool}

namespace Repeated

theorem name_eq (h : t.Repeated imp headed k f q) : q.name = imp.name := by
  have hname := congrArg Implementation.name h.prune_eq
  rwa [Implementation.prune_eq, Implementation.prune_eq] at hname

theorem implementation_span_eq (h : t.Repeated imp headed k f q) : q.span = imp.span := by
  have hspan := congrArg Implementation.span h.prune_eq
  rwa [Implementation.prune_eq, Implementation.prune_eq] at hspan

theorem isHeader_iff (h : t.Repeated imp headed k f q) : q.IsHeader b ↔ imp.IsHeader b := by
  rw [← Implementation.isHeader_prune_iff, h.prune_eq,
    Implementation.isHeader_mapBlocks_iff h.id_eq h.transfer_eq, Implementation.isHeader_prune_iff]

theorem hasUnheadedLoop_iff (h : t.Repeated imp headed k f q) :
    q.HasUnheadedLoop ↔ imp.HasUnheadedLoop := by
  rw [← Implementation.hasUnheadedLoop_prune_iff, h.prune_eq,
    Implementation.hasUnheadedLoop_mapBlocks_iff h.id_eq h.transfer_eq,
    Implementation.hasUnheadedLoop_prune_iff]

theorem predecessorsOf_eq (h : t.Repeated imp headed k f q) :
    q.prune.predecessorsOf = imp.prune.predecessorsOf := by
  rw [h.prune_eq, Implementation.predecessorsOf_mapBlocks h.id_eq h.transfer_eq]

/-- Any number of passes come to the same verdict. -/
theorem error?_eq (h : t.Repeated imp headed k f q) (hids : imp.blockIds.Nodup) {u : Supply} :
    (t.instrument q s).error? = (t.instrument imp u).error? := by
  obtain ⟨_, _, hleaves⟩ := exists_leaves h.nodup t s
  obtain ⟨_, _, hfirst⟩ := exists_leaves hids t u
  by_cases hloop : imp.HasUnheadedLoop
  · rw [hleaves.error?_eq_some (h.hasUnheadedLoop_iff.mpr hloop), hfirst.error?_eq_some hloop,
      h.name_eq, h.implementation_span_eq]
  · rw [hleaves.error?_eq_none (mt h.hasUnheadedLoop_iff.mp hloop), hfirst.error?_eq_none hloop]

/-- One more pass fills one more round of places. -/
theorem placed (h : t.Repeated imp headed k f q) (hheaders : ∀ b, b ∈ headers ↔ headed b = true)
    (hlength : ∀ d ∈ q.prune.blocks, (ids d.id).length = assumptions (t.places headers d)) :
    t.Repeated imp headed (k + 1) (t.place q headers ids ∘ f) (t.placed q headers ids) where
  nodup := by
    rw [blockIds_placed]
    exact Implementation.nodup_blockIds_prune h.nodup
  prune_eq := by
    rw [Instrumenter.placed, h.prune_eq, Implementation.mapBlocks_mapBlocks,
      Implementation.prune_mapBlocks (f := t.place q headers ids ∘ f) h.id_eq h.transfer_eq,
      Implementation.prune_prune]
  id_eq := h.id_eq
  label_eq := h.label_eq
  transfer_eq := h.transfer_eq
  span_eq := h.span_eq
  commands := by
    intro b hb
    have hmem : f b ∈ q.prune.blocks := by
      rw [h.prune_eq]
      exact List.mem_map_of_mem hb
    have hstart : (if (f b).id ∈ headers then t.headerSlots (f b) else []) =
        if headed b.id then t.headerSlots b else [] := by
      rw [headerSlots, headerSlots, h.id_eq, h.span_eq]
      exact if_congr (hheaders b.id) rfl rfl
    refine filledBy_rounds_succ (h.commands b hb) ?_
    rw [← hstart]
    exact filledBy_fill (hlength (f b) hmem)

/-- One more pass leaves nothing to prune, and records the predecessors that any pass records. -/
theorem exists_succ (h : t.Repeated imp headed k f q)
    (hheaded : ∀ b, headed b = true ↔ imp.IsHeader b ∧ ¬ imp.HasUnheadedLoop) (s : Supply) :
    ∃ f', t.Repeated imp headed (k + 1) f' (t.instrument q s).implementation ∧
      (t.instrument q s).implementation = imp.prune.mapBlocks f' ∧
      ∀ b, (f' b).predecessors = imp.prune.predecessorsOf b.id := by
  obtain ⟨headers, ids, hleaves⟩ := exists_leaves h.nodup t s
  rw [hleaves.implementation_eq]
  refine ⟨t.place q headers ids ∘ f, h.placed (fun b ↦ ?_) hleaves.length_eq, ?_, fun b ↦ ?_⟩
  · rw [hleaves.mem_headers, h.isHeader_iff, h.hasUnheadedLoop_iff, hheaded]
  · rw [Instrumenter.placed, h.prune_eq, Implementation.mapBlocks_mapBlocks]
  · rw [← h.predecessorsOf_eq, ← h.id_eq]
    rfl

end Repeated

/-- Some test tells the blocks at whose start a pass places assumptions. -/
theorem exists_headed (imp : Implementation) : ∃ headed : BlockId → Bool,
    ∀ b, headed b = true ↔ imp.IsHeader b ∧ ¬ imp.HasUnheadedLoop := by
  classical
  exact ⟨fun b ↦ decide (imp.IsHeader b ∧ ¬ imp.HasUnheadedLoop), fun _ ↦ decide_eq_true_iff⟩

/-- Before any pass no places are filled. -/
theorem repeated_zero (hids : imp.blockIds.Nodup) : t.Repeated imp headed 0 id imp where
  nodup := hids
  prune_eq := by rw [Implementation.mapBlocks, List.map_id]
  id_eq _ := rfl
  label_eq _ := rfl
  transfer_eq _ := rfl
  span_eq _ := rfl
  commands b _ := by
    rw [rounds_zero, List.forall₂_map_left_iff]
    exact List.forall₂_same.mpr fun c _ ↦ .kept c

section Passes

variable (hids : imp.blockIds.Nodup) (supplies : Nat → Supply) (k : Nat)

include hids

/-- Any number of passes fill as many rounds of places. -/
theorem exists_repeated (hheaded : ∀ b, headed b = true ↔ imp.IsHeader b ∧ ¬ imp.HasUnheadedLoop) :
    ∃ f, t.Repeated imp headed k f (t.repeatedly imp supplies k) := by
  induction k with
  | zero => exact ⟨id, repeated_zero hids⟩
  | succ k ih =>
    -- The next pass meets blocks with `k` rounds of places filled.
    obtain ⟨f, h⟩ := ih
    obtain ⟨f', h', -⟩ := h.exists_succ hheaded (supplies k)
    exact ⟨f', h'⟩

theorem error?_repeatedly : (t.instrument (t.repeatedly imp supplies k) (supplies k)).error? =
    (t.instrument imp (supplies 0)).error? := by
  obtain ⟨headed, hheaded⟩ := exists_headed imp
  obtain ⟨f, h⟩ := exists_repeated (t := t) hids supplies k hheaded
  exact h.error?_eq hids

/-- What is left after any pass, but for the commands. -/
theorem mapBlocks_bare_repeatedly : (t.repeatedly imp supplies (k + 1)).mapBlocks Block.bare =
    imp.prune.mapBlocks fun b ↦ { b with
      commands := []
      predecessors := imp.prune.predecessorsOf b.id } := by
  obtain ⟨headed, hheaded⟩ := exists_headed imp
  obtain ⟨f, h⟩ := exists_repeated (t := t) hids supplies k hheaded
  obtain ⟨f', h', hblocks, hpredecessors⟩ := h.exists_succ hheaded (supplies k)
  rw [repeatedly, hblocks, Implementation.mapBlocks_mapBlocks]
  refine congrArg imp.prune.mapBlocks (funext fun b ↦ ?_)
  rw [Function.comp, Block.bare, h'.id_eq, h'.label_eq, h'.transfer_eq, hpredecessors, h'.span_eq]

/-- After a number of passes as many rounds of places are filled in the reachable blocks. -/
theorem forall₂_repeatedly
    (hheaded : ∀ b, headed b = true ↔ imp.IsHeader b ∧ ¬ imp.HasUnheadedLoop) :
    List.Forall₂ (fun b d ↦ d.id = b.id ∧
        List.Forall₂ Slot.FilledBy (t.rounds (headed b.id) (k + 1) b) d.commands)
      (imp.blocks.filter (imp.Reachable ·.id)) (t.repeatedly imp supplies (k + 1)).blocks := by
  obtain ⟨f, h⟩ := exists_repeated (t := t) hids supplies k hheaded
  obtain ⟨f', h', hblocks, -⟩ := h.exists_succ hheaded (supplies k)
  rw [repeatedly, hblocks, ← Implementation.blocks_prune, Implementation.mapBlocks,
    List.forall₂_map_right_iff]
  exact List.forall₂_same.mpr fun b hb ↦ ⟨h'.id_eq b, h'.commands b hb⟩

end Passes

/-- Passes one after the other come to the verdict of the first, and leave of the implementation
what the first leaves but for the commands: in a block that the first pass keeps, what each pass
places stands once for every pass made, at the start of the loop headers if there is no error, and
after the parallel calls in any case. -/
theorem instrument_repeatedly (t : Instrumenter) (imp : Implementation) (supplies : Nat → Supply)
    (hids : imp.blockIds.Nodup) (k : Nat) :
    (t.instrument (t.repeatedly imp supplies k) (supplies k)).error? =
      (t.instrument imp (supplies 0)).error? ∧
    (t.repeatedly imp supplies (k + 1)).mapBlocks Block.bare =
      (t.repeatedly imp supplies 1).mapBlocks Block.bare ∧
    ((t.instrument imp (supplies 0)).error? = none →
      List.Forall₂ (fun b d ↦ d.id = b.id ∧
          List.Forall₂ Slot.FilledBy (t.rounds (imp.IsHeader b.id) (k + 1) b) d.commands)
        (imp.blocks.filter (imp.Reachable ·.id)) (t.repeatedly imp supplies (k + 1)).blocks) ∧
    ((t.instrument imp (supplies 0)).error? ≠ none →
      List.Forall₂ (fun b d ↦ d.id = b.id ∧
          List.Forall₂ Slot.FilledBy (t.rounds false (k + 1) b) d.commands)
        (imp.blocks.filter (imp.Reachable ·.id)) (t.repeatedly imp supplies (k + 1)).blocks) := by
  obtain ⟨_, _, hfirst⟩ := exists_leaves hids t (supplies 0)
  refine ⟨error?_repeatedly hids supplies k, ?_, fun hnone ↦ ?_, fun hsome ↦ ?_⟩
  · rw [mapBlocks_bare_repeatedly hids supplies k, mapBlocks_bare_repeatedly hids supplies 0]
  · have hloops : ¬ imp.HasUnheadedLoop := by
      intro hloop
      rw [hfirst.error?_eq_some hloop] at hnone
      cases hnone
    have hheaded : ∀ b, (fun b ↦ decide (imp.IsHeader b)) b = true ↔
        imp.IsHeader b ∧ ¬ imp.HasUnheadedLoop :=
      fun b ↦ decide_eq_true_iff.trans (and_iff_left hloops).symm
    exact forall₂_repeatedly hids supplies k hheaded
  · have hloop : imp.HasUnheadedLoop := not_not.mp (mt hfirst.error?_eq_none hsome)
    have hheaded : ∀ b, (fun _ ↦ false) b = true ↔ imp.IsHeader b ∧ ¬ imp.HasUnheadedLoop :=
      fun b ↦ iff_of_false Bool.false_ne_true fun h ↦ h.2 hloop
    exact forall₂_repeatedly hids supplies k hheaded

/-- Numbers for passes over one implementation, greater from pass to pass. -/
def rising (k : Nat) : Supply :=
  ⟨0, 1, 3, .ofNat (3 * k + 2)⟩

/-- Three passes over a loop around a parallel call, and over two blocks that lead to each other and
can both be entered from outside. -/
theorem instrument_repeatedly_thrice :
    spinning.blockIds.Nodup ∧ (observer.instrument spinning (rising 0)).error? = none ∧
    List.Forall₂ (fun b d ↦ d.id = b.id ∧
        List.Forall₂ Slot.FilledBy (observer.rounds (spinning.IsHeader b.id) 3 b) d.commands)
      (spinning.blocks.filter (spinning.Reachable ·.id))
      (observer.repeatedly spinning rising 3).blocks ∧
    crossing.blockIds.Nodup ∧ (observer.instrument crossing (rising 0)).error? ≠ none ∧
    List.Forall₂ (fun b d ↦ d.id = b.id ∧
        List.Forall₂ Slot.FilledBy (observer.rounds false 3 b) d.commands)
      (crossing.blocks.filter (crossing.Reachable ·.id))
      (observer.repeatedly crossing rising 3).blocks := by
  have hok : (observer.instrument spinning (rising 0)).error? = none := by decide +kernel
  have herror : (observer.instrument crossing (rising 0)).error? ≠ none := by decide +kernel
  exact ⟨by decide, hok, (instrument_repeatedly observer spinning rising (by decide) 2).2.2.1 hok,
    by decide, herror, (instrument_repeatedly observer crossing rising (by decide) 2).2.2.2 herror⟩

end Instrumenter

end OwnershipFlow
