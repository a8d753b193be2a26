import OwnershipFlow.Instrumenter.Placement
import OwnershipFlow.Proofs.Numbering

/-!
# Places for assumptions

What an instrumented block consists of is described by slots: a slot keeps a command of the block
or is to be filled by an assumption (`Slot`). Filling gives the assumptions identifiers, one after
the other (`fill`). The commands of a block with assumptions after its parallel calls are the
filled slots of its commands, numbered in a row (`afterCalls_eq`), and block by block the numbers
go on (`exists_afterCallsOfBlocks`).
-/

set_option autoImplicit false
set_option relaxedAutoImplicit false

namespace OwnershipFlow

/-- A command that is kept, or a place for the assumption of a condition. -/
inductive Slot
  | kept (c : Command)
  | assumed (span : Span) (condition : Expr)
  deriving DecidableEq

namespace Slot

/-- Whether a slot is a place for an assumption. -/
def isAssumed : Slot → Bool
  | kept _ => false
  | assumed _ _ => true

end Slot

/-- The number of assumptions to be made. -/
def assumptions (slots : List Slot) : Nat :=
  slots.countP Slot.isAssumed

/-- The commands at slots, given the identifiers of the assumptions. -/
def fill : List Slot → List CommandId → List Command
  | [], _ => []
  | .kept c :: rest, ids => c :: fill rest ids
  | .assumed _ _ :: _, [] => []
  | .assumed span condition :: rest, id :: ids => ⟨id, span, .assume condition⟩ :: fill rest ids

/-- The next command identifiers of a supply. -/
def Supply.nextCommands (s : Supply) (count : Nat) : List CommandId :=
  Ident.consecutive s.command count

namespace Supply

variable {s : Supply} {m n : Nat} {id : CommandId}

theorem length_nextCommands : (s.nextCommands n).length = n :=
  Ident.length_consecutive ..

theorem nextCommands_add :
    s.nextCommands (m + n) = s.nextCommands m ++ (s.skipCommands m).nextCommands n :=
  Ident.consecutive_add

theorem mem_nextCommands (h : s.HasCommands n) : id ∈ s.nextCommands n ↔
    s.command.toNat ≤ id.index ∧ id.index < (s.skipCommands n).command.toNat := by
  rw [command_skipCommands h]
  exact Ident.mem_consecutive h

/-- Identifiers that are drawn, each for one use, are different. -/
theorem nodup_of_subperm {ids : List CommandId} (h : s.HasCommands n)
    (hids : List.Subperm ids (s.nextCommands n)) : ids.Nodup := by
  obtain ⟨drawn, hperm, hdrawn⟩ := hids
  exact hperm.nodup_iff.mp ((Ident.nodup_consecutive h).sublist hdrawn)

end Supply

section Fill

variable {first second : List Slot} {ids rest : List CommandId} {s : Supply} {span : Span}

theorem assumptions_append :
    assumptions (first ++ second) = assumptions first + assumptions second :=
  List.countP_append

theorem assumptions_cons_kept {c : Command} :
    assumptions (.kept c :: first) = assumptions first :=
  List.countP_cons_of_neg Bool.false_ne_true

theorem assumptions_cons_assumed {condition : Expr} :
    assumptions (.assumed span condition :: first) = assumptions first + 1 :=
  List.countP_cons_of_pos rfl

theorem assumptions_map_assumed {conditions : List Expr} :
    assumptions (conditions.map (.assumed span)) = conditions.length := by
  rw [assumptions, List.countP_map]
  exact List.countP_eq_length.mpr fun _ _ ↦ rfl

theorem fill_append (h : ids.length = assumptions first) :
    fill (first ++ second) (ids ++ rest) = fill first ids ++ fill second rest := by
  induction first generalizing ids with
  | nil =>
    obtain rfl : ids = [] := List.length_eq_zero_iff.mp h
    rfl
  | cons slot first ih =>
    cases slot with
    | kept c =>
      rw [assumptions_cons_kept] at h
      rw [List.cons_append, fill, fill, List.cons_append, ih h]
    | assumed span condition =>
      rw [assumptions_cons_assumed] at h
      cases ids with
      | nil => cases h
      | cons id ids =>
        rw [List.cons_append, List.cons_append, fill, fill, List.cons_append,
          ih (Nat.succ.inj h)]

/-- Assumptions fill a row of places for them. -/
theorem fill_map_assumed {conditions : List Expr} :
    fill (conditions.map (.assumed span)) (s.nextCommands conditions.length) =
      Instrumenter.assumeFrom s.command span conditions := by
  rw [Instrumenter.assumeFrom, Supply.nextCommands]
  generalize s.command = next
  induction conditions generalizing next with
  | nil => rfl
  | cons e rest ih =>
    rw [List.length_cons, Ident.consecutive, List.map_cons, fill, ih, List.zipWith_cons_cons]

end Fill

namespace Instrumenter

variable {t : Instrumenter} {s : Supply}

/-! ### Parallel calls -/

/-- What is to be assumed after a command. -/
def conditionsAfter (t : Instrumenter) (c : Command) : List Expr :=
  if c.isParCall then t.disjointnessAt (.command c.id) true else []

/-- A command with the places after it. -/
def slotsAfter (t : Instrumenter) (c : Command) : List Slot :=
  .kept c :: (t.conditionsAfter c).map (.assumed c.span)

/-- The commands of a block with the places after its parallel calls. -/
def bodySlots (t : Instrumenter) (b : Block) : List Slot :=
  b.commands.flatMap t.slotsAfter

theorem assumeAfter_eq {c : Command} :
    t.assumeAfter c s = (assumeFrom s.command c.span (t.conditionsAfter c),
      s.skipCommands (t.conditionsAfter c).length) := by
  rw [assumeAfter, conditionsAfter]
  split
  · rfl
  · rw [List.length_nil, Supply.skipCommands_zero]
    rfl

/-- Commands with assumptions after parallel calls are filled slots, numbered in a row. -/
theorem afterCalls_eq {commands : List Command} :
    t.afterCalls commands s =
      (fill (commands.flatMap t.slotsAfter)
        (s.nextCommands (assumptions (commands.flatMap t.slotsAfter))),
      s.skipCommands (assumptions (commands.flatMap t.slotsAfter))) := by
  induction commands generalizing s with
  | nil => exact congrArg ([], ·) s.skipCommands_zero.symm
  | cons c rest ih =>
    have hcount : assumptions (t.slotsAfter c) = (t.conditionsAfter c).length := by
      rw [slotsAfter, assumptions_cons_kept, assumptions_map_assumed]
    rw [List.flatMap_cons, assumptions_append, Supply.nextCommands_add,
      fill_append Supply.length_nextCommands, hcount, slotsAfter, fill, fill_map_assumed,
      ← Supply.skipCommands_skipCommands]
    simp only [afterCalls, assumeAfter_eq, ih, List.cons_append]

/-- A block with its slots filled. -/
def fillBody (t : Instrumenter) (ids : List CommandId) (b : Block) : Block :=
  { b with commands := fill (t.bodySlots b) ids }

theorem afterCallsOfBlocks_cons {b : Block} {rest : List Block} :
    t.afterCallsOfBlocks (b :: rest) s =
      (t.fillBody (s.nextCommands (assumptions (t.bodySlots b))) b ::
        (t.afterCallsOfBlocks rest (s.skipCommands (assumptions (t.bodySlots b)))).1,
      (t.afterCallsOfBlocks rest (s.skipCommands (assumptions (t.bodySlots b)))).2) := by
  simp only [afterCallsOfBlocks, afterCalls_eq]
  rfl

/-- The commands of blocks are filled slots, with numbers that go on from block to block. -/
theorem exists_afterCallsOfBlocks {blocks : List Block} (hids : (blocks.map Block.id).Nodup) :
    ∃ ids : BlockId → List CommandId,
      t.afterCallsOfBlocks blocks s = (blocks.map fun b ↦ t.fillBody (ids b.id) b,
        s.skipCommands (assumptions (blocks.flatMap t.bodySlots))) ∧
      blocks.flatMap (fun b ↦ ids b.id) =
        s.nextCommands (assumptions (blocks.flatMap t.bodySlots)) ∧
      ∀ b ∈ blocks, (ids b.id).length = assumptions (t.bodySlots b) := by
  induction blocks generalizing s with
  | nil =>
    exact ⟨fun _ ↦ [], congrArg ([], ·) s.skipCommands_zero.symm, rfl,
      fun b hb ↦ absurd hb List.not_mem_nil⟩
  | cons b rest ih =>
    rw [List.map_cons, List.nodup_cons] at hids
    obtain ⟨ids, hblocks, hall, hlength⟩ :=
      ih (s := s.skipCommands (assumptions (t.bodySlots b))) hids.2
    have hother : ∀ c ∈ rest, c.id ≠ b.id :=
      fun c hc heq ↦ hids.1 (heq ▸ List.mem_map_of_mem hc)
    have hsame : ∀ c ∈ rest,
        Function.update ids b.id (s.nextCommands (assumptions (t.bodySlots b))) c.id = ids c.id :=
      fun c hc ↦ Function.update_of_ne (hother c hc) _ _
    refine ⟨Function.update ids b.id (s.nextCommands (assumptions (t.bodySlots b))),
      ?_, ?_, fun c hc ↦ ?_⟩
    · rw [afterCallsOfBlocks_cons, hblocks, List.map_cons, List.flatMap_cons, assumptions_append,
        Function.update_self, Supply.skipCommands_skipCommands]
      exact congrArg (fun blocks ↦ (_ :: blocks, _))
        (List.map_congr_left fun c hc ↦ by rw [hsame c hc])
    · rw [List.flatMap_cons, List.flatMap_cons, assumptions_append, Supply.nextCommands_add,
        Function.update_self, ← hall]
      exact congrArg _ (List.flatMap_congr hsame)
    · rcases List.mem_cons.mp hc with rfl | hc
      · rw [Function.update_self, Supply.length_nextCommands]
      · rw [hsame c hc, hlength c hc]

end Instrumenter

end OwnershipFlow
