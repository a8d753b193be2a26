import OwnershipFlow.Proofs.Outcome
import OwnershipFlow.Proofs.Tables

/-!
# Instrumentation keeps what is available

An analysis after a pass, with either verdict, finds what one before the pass finds. New
assumptions change nothing that is held (`Interspersed.transferAll_eq`), so the commands of a
block do the same with them as without (`transferBlock_placed`). Removed blocks lie on no walk
from the entry, so what is held along all walks to a block is the same too (`exists_held`). A new
command follows a parallel call or the start of a loop header (`exists_follows`) and holds what is
held there (`getElem?_availability_of_follows`). As long as the command counter does not pass its
greatest value its identifier is new (`Leaves.leavesNew`), so its entry takes no other one's place.
-/

set_option autoImplicit false
set_option relaxedAutoImplicit false

namespace OwnershipFlow

variable {p : Program} {t : Instrumenter} {imp : Implementation} {s : Supply} {held : VarSet}
  {headers : List BlockId} {ids : BlockId → List CommandId} {block : Block} {b entry : BlockId}
  {a c : Command} {commands filled before after : List Command}

/-! ### Positions in a block -/

namespace Program

/-- A command of a reachable block ends with what it and those before it make of what the block
starts with. -/
theorem exists_availability_append (hids : imp.blockIds.Nodup)
    (hcommands : (imp.commands.map Command.id).Nodup) (hmem : block ∈ imp.blocks)
    (hreach : imp.Reachable block.id) :
    ∃ held, (p.availability imp)[Node.block block.id]? = some held ∧
      (∀ v, v ∈ held ↔ ∀ entry left, imp.entry? = some entry →
        Walk imp.targetsOf entry left block.id → v ∈ p.along imp left (p.heldAtEntry imp)) ∧
      ∀ before c after, block.commands = before ++ c :: after →
        (p.availability imp)[Node.command c.id]? = some (p.transferAll (before ++ [c]) held) := by
  obtain ⟨held, hstart, hmeet, hrun⟩ := exists_availability (p := p) hids hcommands hmem hreach
  refine ⟨held, hstart, hmeet, fun before c after hsplit ↦ ?_⟩
  have hposition : block.commands[before.length]? = some c := by
    rw [hsplit, List.getElem?_append_right (Nat.le_refl _), Nat.sub_self]
    rfl
  rw [hrun _ c hposition, hsplit, List.take_append, List.take_of_length_le (Nat.le_succ _),
    Nat.add_sub_cancel_left]
  rfl

end Program

/-! ### Interspersed commands -/

namespace Program

theorem transferAll_append {first second : List Command} :
    p.transferAll (first ++ second) held = p.transferAll second (p.transferAll first held) :=
  List.foldl_append

/-- New assumptions change nothing that is held. -/
theorem transferAll_of_assumes {assumed : List Command} (h : ∀ a ∈ assumed, s.Assumes a) :
    p.transferAll assumed held = held := by
  induction assumed with
  | nil => rfl
  | cons a rest ih =>
    obtain ⟨-, condition, haction⟩ := h a List.mem_cons_self
    have hidle : p.transfer held a = held := by
      rw [transfer, haction]
      exact Effect.act_idle
    rw [transferAll, List.foldl_cons, hidle]
    exact ih fun a ha ↦ h a (List.mem_cons_of_mem _ ha)

end Program

namespace Interspersed

theorem transferAll_eq (h : Interspersed s commands filled) :
    p.transferAll filled held = p.transferAll commands held := by
  induction h generalizing held with
  | nil => rfl
  | cons hnew _ _ ih =>
    calc p.transferAll (_ :: (_ ++ _)) held
        = p.transferAll (_ ++ _) (p.transfer held _) := rfl
      _ = p.transferAll _ (p.transfer held _) := by
          rw [Program.transferAll_append, Program.transferAll_of_assumes hnew]
      _ = p.transferAll (_ :: _) held := ih

/-- The commands before a command are interspersed with what is before it afterwards. -/
theorem exists_split (h : Interspersed s commands filled)
    (hsplit : commands = before ++ c :: after) :
    ∃ before' after', filled = before' ++ c :: after' ∧ Interspersed s before before' := by
  induction h generalizing before with
  | nil => simp at hsplit
  | @cons first assumed commands filled hnew hcall rest ih =>
    cases before with
    | nil =>
      obtain ⟨rfl, -⟩ := List.cons.inj hsplit
      exact ⟨[], assumed ++ filled, rfl, .nil⟩
    | cons d before =>
      obtain ⟨rfl, hrest⟩ := List.cons.inj hsplit
      obtain ⟨before', after', rfl, hbefore⟩ := ih hrest
      exact ⟨first :: (assumed ++ before'), after', by simp, .cons hnew hcall hbefore⟩

/-- A new command comes after a parallel call, with only new ones in between. -/
theorem exists_call (h : Interspersed s commands filled) (hold : ∀ c ∈ commands, ¬ s.Assumes c)
    (ha : s.Assumes a) (hsplit : filled = before ++ a :: after) :
    ∃ before' c between, before = before' ++ c :: between ∧ c ∈ commands ∧ c.isParCall ∧
      ∀ x ∈ between, s.Assumes x := by
  induction h generalizing before with
  | nil => simp at hsplit
  | @cons first assumed commands filled hnew hcall rest ih =>
    cases before with
    | nil =>
      obtain ⟨rfl, -⟩ := List.cons.inj hsplit
      exact absurd ha (hold first List.mem_cons_self)
    | cons d before =>
      obtain ⟨rfl, hrest⟩ := List.cons.inj hsplit
      rcases append_eq_append_cons hrest with ⟨between, rfl, hfilled⟩ | ⟨between, hassumed, -⟩
      · -- All that was put in after the first command comes before the new one.
        obtain ⟨before', c, between', rfl, hmem, hpar, hbetween⟩ :=
          ih (fun c hc ↦ hold c (List.mem_cons_of_mem _ hc)) hfilled
        exact ⟨first :: (assumed ++ before'), c, between', by simp, List.mem_cons_of_mem _ hmem,
          hpar, hbetween⟩
      · -- The new one is among what was put in after the first command.
        have hsome : assumed ≠ [] := hassumed ▸ List.append_ne_nil_of_right_ne_nil _ (by simp)
        refine ⟨[], first, before, rfl, List.mem_cons_self, hcall hsome, fun x hx ↦ hnew x ?_⟩
        exact hassumed ▸ List.mem_append_left _ hx

end Interspersed

theorem Interspersed.mem_or_assumes (h : Interspersed s commands filled) (ha : a ∈ filled) :
    a ∈ commands ∨ s.Assumes a := by
  induction h with
  | nil => exact absurd ha List.not_mem_nil
  | cons hnew _ _ ih =>
    rcases List.mem_cons.mp ha with rfl | ha
    · exact .inl List.mem_cons_self
    · rcases List.mem_append.mp ha with ha | ha
      · exact .inr (hnew a ha)
      · exact (ih ha).imp_left (List.mem_cons_of_mem _)

/-! ### Points that new commands follow -/

/-- A command that an implementation does not have comes after a point of a block, with only such
commands in between: after the start of the block, if that is a loop header, or after a parallel
call of the implementation. -/
inductive Implementation.Follows (imp : Implementation) (d : Block) (a : Command) : Node → Prop
  | start {between after : List Command} (hcommands : d.commands = between ++ a :: after)
      (hnew : ∀ x ∈ between ++ [a], x.id ∉ imp.commands.map Command.id)
      (hheader : imp.IsHeader d.id) :
      Follows imp d a (.block d.id)
  | call {before between after : List Command} {c : Command}
      (hcommands : d.commands = before ++ c :: (between ++ a :: after))
      (hnew : ∀ x ∈ between ++ [a], x.id ∉ imp.commands.map Command.id) (hmem : c ∈ imp.commands)
      (hcall : c.isParCall) : Follows imp d a (.command c.id)

/-! ### What is held in filled blocks -/

namespace Instrumenter.LeavesNew

variable (h : t.LeavesNew imp s headers ids)

include h

theorem exists_interspersed (hmem : block ∈ imp.blocks) (hreach : imp.Reachable block.id) :
    ∃ front filled, (t.place imp headers ids block).commands = front ++ filled ∧
      (∀ a ∈ front, s.Assumes a) ∧ (front ≠ [] → imp.IsHeader block.id) ∧
      Interspersed s block.commands filled := by
  have hprune := Implementation.mem_blocks_prune_iff.mpr ⟨hmem, hreach⟩
  obtain ⟨front, filled, heq, hfront, hheader, hfilled⟩ :=
    Instrumenter.exists_interspersed imp (h.length_eq _ hprune) (h.new _ hprune)
  exact ⟨front, filled, heq, hfront, fun hsome ↦ ((h.mem_headers _).mp (hheader hsome)).1, hfilled⟩

/-- A filled block does what the block did. -/
theorem transferBlock_placed (hreach : imp.Reachable b) :
    p.transferBlock (t.placed imp headers ids) b held = p.transferBlock imp b held := by
  unfold Program.transferBlock
  rw [block?_placed hreach]
  cases hblock : imp.block? b with
  | none => rfl
  | some block =>
    obtain ⟨hmem, rfl⟩ := Implementation.block?_eq_some hblock
    obtain ⟨front, filled, heq, hfront, -, hfilled⟩ := h.exists_interspersed hmem hreach
    rw [Option.map_some, Option.elim_some, Option.elim_some, heq, Program.transferAll_append,
      Program.transferAll_of_assumes hfront, hfilled.transferAll_eq]

theorem along_placed {left : List BlockId} (hentry : imp.entry? = some entry)
    (hwalk : Walk imp.targetsOf entry left b) :
    p.along (t.placed imp headers ids) left held = p.along imp left held := by
  refine List.foldl_ext _ _ _ fun held a ha ↦ h.transferBlock_placed ?_
  exact (Implementation.reachable_entry hentry).of_mem_walk hwalk ha

variable (hids : imp.blockIds.Nodup) (hcommands : (imp.commands.map Command.id).Nodup)
  (hold : ∀ c ∈ imp.commands, c.id.index < s.command.toNat)

omit h in
include hids in
theorem nodup_blockIds_placed : (t.placed imp headers ids).blockIds.Nodup :=
  blockIds_placed ▸ Implementation.nodup_blockIds_prune hids

include hcommands hold in
/-- All commands of filled blocks are distinct: the old ones as they were before, and the new ones
as they have been given different identifiers. -/
theorem nodup_commands_placed :
    ((t.placed imp headers ids).commands.map Command.id).Nodup := by
  have hperm : ((t.placed imp headers ids).commands.map Command.id).Perm
      ((imp.prune.blocks.flatMap fun b ↦ b.commands.map Command.id) ++
        imp.prune.blocks.flatMap fun b ↦ ids b.id) := by
    unfold Implementation.commands placed Implementation.mapBlocks
    rw [List.flatMap_map, List.map_flatMap]
    refine List.Perm.trans ?_ (List.flatMap_append_perm _ _ _).symm
    exact List.Perm.flatMap_left _ fun b hb ↦ map_id_commands_place_perm (h.length_eq b hb)
  have hkept : (imp.prune.blocks.flatMap fun b ↦ b.commands.map Command.id).Nodup := by
    rw [Implementation.commands, List.map_flatMap] at hcommands
    rw [Implementation.blocks_prune]
    exact hcommands.sublist (List.filter_sublist.flatMap _)
  rw [hperm.nodup_iff, List.nodup_append']
  refine ⟨hkept, h.nodup, fun id hleft hright ↦ ?_⟩
  obtain ⟨b, hb, hid⟩ := List.mem_flatMap.mp hleft
  obtain ⟨c, hc, rfl⟩ := List.mem_map.mp hid
  obtain ⟨d, hd, hnew⟩ := List.mem_flatMap.mp hright
  have hlt := hold c (Implementation.mem_commands (Implementation.mem_blocks_prune_iff.mp hb).1 hc)
  exact absurd (h.new d hd c.id hnew) (Nat.not_le.mpr hlt)

include hids hcommands hold in
/-- An analysis finds the same at the start of a block, and after its commands what they make of
that, before the pass and afterwards. -/
theorem exists_held (p : Program) (hmem : block ∈ imp.blocks) (hreach : imp.Reachable block.id) :
    ∃ held, ((p.availability imp)[Node.block block.id]? = some held ∧
        ∀ before c after, block.commands = before ++ c :: after →
          (p.availability imp)[Node.command c.id]? = some (p.transferAll (before ++ [c]) held)) ∧
      ((p.availability (t.placed imp headers ids))[Node.block block.id]? = some held ∧
        ∀ before c after, (t.place imp headers ids block).commands = before ++ c :: after →
          (p.availability (t.placed imp headers ids))[Node.command c.id]? =
            some (p.transferAll (before ++ [c]) held)) := by
  obtain ⟨held, hstart, hmeet, hrun⟩ :=
    Program.exists_availability_append (p := p) hids hcommands hmem hreach
  obtain ⟨held', hstart', hmeet', hrun'⟩ :=
    Program.exists_availability_append (p := p) (nodup_blockIds_placed hids)
      (h.nodup_commands_placed hcommands hold) (mem_blocks_placed.mpr ⟨block, hmem, hreach, rfl⟩)
      (reachable_placed_iff.mpr hreach)
  obtain rfl : held = held' := by
    ext v
    rw [hmeet, hmeet', entry?_placed]
    refine forall₃_congr fun entry left hentry ↦ ?_
    rw [walk_placed_iff hentry, Program.heldAtEntry_congr ins_placed]
    exact imp_congr_right fun hwalk ↦ by rw [h.along_placed hentry hwalk]
  exact ⟨held, ⟨hstart, hrun⟩, hstart', hrun'⟩

include hids hcommands hold in
/-- The points of reachable blocks keep their entries. -/
theorem getElem?_availability_placed {n : Node} (hmem : block ∈ imp.blocks)
    (hreach : imp.Reachable block.id) (hn : n ∈ block.nodes) :
    (p.availability (t.placed imp headers ids))[n]? = (p.availability imp)[n]? := by
  obtain ⟨held, ⟨hstart, hrun⟩, hstart', hrun'⟩ := h.exists_held hids hcommands hold p hmem hreach
  rcases Implementation.mem_nodes_block_iff.mp hn with rfl | ⟨c, hc, rfl⟩
  · rw [hstart, hstart']
  · obtain ⟨before, after, hsplit⟩ := List.append_of_mem hc
    obtain ⟨front, filled, heq, hfront, -, hfilled⟩ := h.exists_interspersed hmem hreach
    obtain ⟨before', after', rfl, hbefore⟩ := hfilled.exists_split hsplit
    rw [hrun before c after hsplit, hrun' (front ++ before') c after' (by simp [heq])]
    simp only [Program.transferAll_append, Program.transferAll_of_assumes hfront,
      hbefore.transferAll_eq]

/-- The commands of a filled block are those of the block and new assumptions. -/
theorem mem_or_assumes (hmem : block ∈ imp.blocks) (hreach : imp.Reachable block.id)
    (ha : a ∈ (t.place imp headers ids block).commands) : a ∈ block.commands ∨ s.Assumes a := by
  obtain ⟨front, filled, heq, hfront, -, hfilled⟩ := h.exists_interspersed hmem hreach
  rcases List.mem_append.mp (heq ▸ ha) with hin | hin
  · exact .inr (hfront a hin)
  · exact hfilled.mem_or_assumes hin

theorem assumes_of_not_mem (hmem : block ∈ imp.blocks) (hreach : imp.Reachable block.id)
    (ha : a ∈ (t.place imp headers ids block).commands)
    (hnew : a.id ∉ imp.commands.map Command.id) : s.Assumes a :=
  (h.mem_or_assumes hmem hreach ha).resolve_left fun hc ↦
    hnew (List.mem_map_of_mem (Implementation.mem_commands hmem hc))

omit h in
include hold in
theorem not_mem_of_assumes (ha : s.Assumes a) : a.id ∉ imp.commands.map Command.id := by
  intro hin
  obtain ⟨c, hc, hid⟩ := List.mem_map.mp hin
  exact absurd ha.1 (Nat.not_le.mpr (hid ▸ hold c hc))

include hold in
/-- A new command follows a parallel call of the block, or the start of a loop header. -/
theorem exists_follows (hmem : block ∈ imp.blocks) (hreach : imp.Reachable block.id)
    (ha : a ∈ (t.place imp headers ids block).commands)
    (hnew : a.id ∉ imp.commands.map Command.id) :
    ∃ n ∈ block.nodes, imp.Follows (t.place imp headers ids block) a n := by
  obtain ⟨front, filled, heq, hfront, hheader, hfilled⟩ := h.exists_interspersed hmem hreach
  have hassumes := h.assumes_of_not_mem hmem hreach ha hnew
  have hlast : ∀ {between : List Command}, (∀ x ∈ between, s.Assumes x) →
      ∀ x ∈ between ++ [a], x.id ∉ imp.commands.map Command.id := by
    intro between hall x hx
    rcases List.mem_append.mp hx with hx | hx
    · exact not_mem_of_assumes hold (hall x hx)
    · exact List.mem_singleton.mp hx ▸ hnew
  obtain ⟨before, after, hsplit⟩ := List.append_of_mem ha
  rcases append_eq_append_cons (heq ▸ hsplit) with ⟨rest, rfl, hrest⟩ | ⟨rest, hfront', -⟩
  · have hkept : ∀ c ∈ block.commands, ¬ s.Assumes c := fun c hc hassumes ↦
      not_mem_of_assumes hold hassumes (List.mem_map_of_mem (Implementation.mem_commands hmem hc))
    obtain ⟨before', c, between, rfl, hc, hpar, hall⟩ := hfilled.exists_call hkept hassumes hrest
    have hposition : (t.place imp headers ids block).commands =
        (front ++ before') ++ c :: (between ++ a :: after) := by
      rw [hsplit]
      simp
    exact ⟨_, Implementation.mem_nodes_block_iff.mpr (.inr ⟨c, hc, rfl⟩),
      .call hposition (hlast hall) (Implementation.mem_commands hmem hc) hpar⟩
  · have hall : ∀ x ∈ before, s.Assumes x :=
      fun x hx ↦ hfront x (hfront' ▸ List.mem_append_left _ hx)
    have hsome : front ≠ [] := hfront' ▸ List.append_ne_nil_of_right_ne_nil _ (by simp)
    exact ⟨_, List.mem_cons_self, .start hsplit (hlast hall) (hheader hsome)⟩

include hids hcommands hold in
/-- A new command holds what is held at the point that it follows. -/
theorem getElem?_availability_of_follows {n : Node} (hmem : block ∈ imp.blocks)
    (hreach : imp.Reachable block.id) (hn : n ∈ block.nodes)
    (hfollows : imp.Follows (t.place imp headers ids block) a n) :
    (p.availability (t.placed imp headers ids))[Node.command a.id]? = (p.availability imp)[n]? := by
  obtain ⟨held, -, hstart, hrun⟩ := h.exists_held hids hcommands hold p hmem hreach
  rw [← h.getElem?_availability_placed hids hcommands hold hmem hreach hn]
  cases hfollows with
  | @start between after hsplit hnew hheader =>
    have hregroup : (t.place imp headers ids block).commands = (between ++ [a]) ++ after := by
      simp [hsplit]
    have hall : ∀ x ∈ between ++ [a], s.Assumes x := fun x hx ↦
      h.assumes_of_not_mem hmem hreach (hregroup ▸ List.mem_append_left _ hx) (hnew x hx)
    rw [hrun _ a after hsplit, Program.transferAll_of_assumes hall]
    exact hstart.symm
  | @call before between after c hsplit hnew hold' hcall =>
    have hregroup : (t.place imp headers ids block).commands =
        (before ++ [c]) ++ ((between ++ [a]) ++ after) := by
      simp [hsplit]
    have hall : ∀ x ∈ between ++ [a], s.Assumes x := fun x hx ↦
      h.assumes_of_not_mem hmem hreach
        (hregroup ▸ List.mem_append_right _ (List.mem_append_left _ hx)) (hnew x hx)
    have hposition : (t.place imp headers ids block).commands =
        (before ++ [c] ++ between) ++ a :: after := by
      simp [hsplit]
    rw [hrun _ c _ hsplit, hrun _ a after hposition, List.append_assoc, Program.transferAll_append,
      Program.transferAll_of_assumes hall]

include hids hcommands hold in
/-- Afterwards there are entries at the points at which there were entries before, and at new
commands. -/
theorem mem_availability_placed_iff {n : Node} : n ∈ p.availability (t.placed imp headers ids) ↔
    n ∈ p.availability imp ∨ ∃ d ∈ (t.placed imp headers ids).blocks, ∃ a ∈ d.commands,
      a.id ∉ imp.commands.map Command.id ∧ n = .command a.id := by
  have hplaced : n ∈ p.availability (t.placed imp headers ids) ↔
      ∃ d ∈ (t.placed imp headers ids).blocks,
        (t.placed imp headers ids).Reachable d.id ∧ n ∈ d.nodes :=
    Program.mem_availability_iff (nodup_blockIds_placed hids)
  constructor
  · intro hin
    obtain ⟨d, hd, -, hn⟩ := hplaced.mp hin
    obtain ⟨block, hmem, hreach, rfl⟩ := mem_blocks_placed.mp hd
    have hbefore : n ∈ block.nodes → n ∈ p.availability imp :=
      fun hn ↦ (Program.mem_availability_iff hids).mpr ⟨block, hmem, hreach, hn⟩
    rcases Implementation.mem_nodes_block_iff.mp hn with rfl | ⟨a, ha, rfl⟩
    · exact .inl (hbefore List.mem_cons_self)
    · rcases h.mem_or_assumes hmem hreach ha with hc | hassumes
      · exact .inl (hbefore (Implementation.mem_nodes_block_iff.mpr (.inr ⟨a, hc, rfl⟩)))
      · exact .inr ⟨_, hd, a, ha, not_mem_of_assumes hold hassumes, rfl⟩
  · rintro (hin | ⟨d, hd, a, ha, -, rfl⟩)
    · obtain ⟨block, hmem, hreach, hn⟩ := (Program.mem_availability_iff hids).mp hin
      rwa [Std.ExtTreeMap.mem_iff_isSome_getElem?,
        h.getElem?_availability_placed hids hcommands hold hmem hreach hn,
        ← Std.ExtTreeMap.mem_iff_isSome_getElem?]
    · obtain ⟨block, -, hreach, rfl⟩ := mem_blocks_placed.mp hd
      exact hplaced.mpr ⟨_, hd, reachable_placed_iff.mpr hreach,
        Implementation.mem_nodes_block_iff.mpr (.inr ⟨a, ha, rfl⟩)⟩

include hids hcommands hold in
/-- No entry is made or changed under an identifier that had been handed out. -/
theorem getElem?_availability_placed_of_issued {n : Node} (hn : s.Issued n) :
    (p.availability (t.placed imp headers ids))[n]? = (p.availability imp)[n]? := by
  by_cases hin : n ∈ p.availability imp
  · obtain ⟨block, hmem, hreach, hn⟩ := (Program.mem_availability_iff hids).mp hin
    exact h.getElem?_availability_placed hids hcommands hold hmem hreach hn
  · rw [Std.ExtTreeMap.getElem?_eq_none hin, Std.ExtTreeMap.getElem?_eq_none]
    intro hin'
    obtain ⟨d, hd, a, ha, hnew, rfl⟩ :=
      ((h.mem_availability_placed_iff hids hcommands hold).mp hin').resolve_left hin
    obtain ⟨block, hmem, hreach, rfl⟩ := mem_blocks_placed.mp hd
    exact absurd (h.assumes_of_not_mem hmem hreach ha hnew).1 (Nat.not_le.mpr hn)

end Instrumenter.LeavesNew

/-! ### Whole programs -/

namespace Program

variable {q : Program} {c c' : Checked} {id : ImplId} {n : Node} {result : Instrumented}

/-- The program after a pass over one of its implementations. -/
theorem exists_of_instrument? (h : p.instrument? t id = some (result, q)) :
    ∃ imp, p.implementations[id]? = some imp ∧ q = { p with
      implementations := p.implementations.insert id (t.instrument imp p.supply).implementation
      supply := (t.instrument imp p.supply).supply } := by
  obtain ⟨imp, himp, heq⟩ := Option.map_eq_some_iff.mp h
  cases heq
  exact ⟨imp, himp, rfl⟩

section Pass

variable (hnodup : p.flowNodes.Nodup) (hissued : ∀ n ∈ p.flowNodes, p.supply.Issued n)
  (h : p.instrument? t id = some (result, q)) (hroom : ∀ imp, p.implementations[id]? = some imp →
    p.supply.HasCommands (t.demand imp p.supply))

include hnodup hissued h hroom

/-- After a pass, every implementation has the entries that it had at points handed out before. -/
theorem exists_getElem?_availability (hn : p.supply.Issued n) {k : ImplId} {d : Implementation}
    (hd : q.implementations[k]? = some d) : ∃ imp, p.implementations[k]? = some imp ∧
      (q.availability d)[n]? = (p.availability imp)[n]? := by
  obtain ⟨imp, himp, hq⟩ := exists_of_instrument? h
  have hanalysis : q.availability = p.availability :=
    availability_congr (by rw [hq]) (by rw [hq])
  rw [hanalysis]
  rw [hq] at hd
  rcases eq_or_of_getElem?_map_insert hd with ⟨rfl, rfl⟩ | ⟨-, hd⟩
  · obtain ⟨hids, hcommands⟩ := nodup_of_nodup_flowNodes hnodup himp
    obtain ⟨headers, ids, hleaves⟩ := Instrumenter.exists_leaves hids t p.supply
    replace hleaves := hleaves.leavesNew (hroom imp himp)
    have hold : ∀ c ∈ imp.commands, p.supply.Issued (.command c.id) := fun c hc ↦
      hissued _ (mem_flowNodes_iff.mpr ⟨k, imp, himp, Implementation.mem_flowNodes_iff.mpr
        (.inr ⟨c.id, List.mem_map_of_mem hc, rfl⟩)⟩)
    rw [hleaves.implementation_eq]
    exact ⟨imp, himp, hleaves.getElem?_availability_placed_of_issued hids hcommands hold hn⟩
  · exact ⟨d, hd, rfl⟩

/-- A pass changes no entry at the blocks and the commands that the program had. -/
theorem getElem?_allAvailable_instrument (hn : n ∈ p.flowNodes) :
    q.allAvailable[n]? = p.allAvailable[n]? := by
  obtain ⟨k, imp, himp, hin⟩ := mem_flowNodes_iff.mp hn
  obtain ⟨d, hd⟩ : ∃ d, q.implementations[k]? = some d := by
    obtain ⟨changed, -, rfl⟩ := exists_of_instrument? h
    rw [getElem?_map_insert]
    split_ifs
    · exact ⟨_, rfl⟩
    · exact ⟨imp, himp⟩
  obtain ⟨before, hbefore, heq⟩ :=
    exists_getElem?_availability hnodup hissued h hroom (hissued n hn) hd
  obtain rfl : imp = before := Option.some.inj (himp.symm.trans hbefore)
  rw [getElem?_allAvailable_of_mem_nodes hnodup himp (List.mem_cons_of_mem _ hin),
    getElem?_allAvailable_of_not_mem hd, heq]
  intro k' d' hd' hne hin'
  obtain ⟨other, hother, heq'⟩ :=
    exists_getElem?_availability hnodup hissued h hroom (hissued n hn) hd'
  refine not_mem_availability_of_ne hnodup himp (List.mem_cons_of_mem _ hin) hother hne ?_
  rwa [Std.ExtTreeMap.mem_iff_isSome_getElem?, ← heq', ← Std.ExtTreeMap.mem_iff_isSome_getElem?]

end Pass

/-- A pass, with either verdict, does not change what is available. The points of reachable blocks
keep their entries, a new command holds what is held at the point that it follows, and there are no
further entries. Where the blocks and the commands of the whole program are distinct and have been
handed out, the program after a pass over any implementation is accepted if it was before, and what
is on record for these blocks and commands stays the same. All of this takes a command counter that
does not pass its greatest value during the pass. -/
theorem availability_instrument (p : Program) (t : Instrumenter) (imp : Implementation) (s : Supply)
    (hids : imp.blockIds.Nodup) (hcommands : (imp.commands.map Command.id).Nodup)
    (hold : ∀ c ∈ imp.commands, c.id.index < s.command.toNat)
    (hroom : s.HasCommands (t.demand imp s)) :
    (∀ block ∈ imp.blocks, imp.Reachable block.id → ∀ n ∈ block.nodes, n ∈ p.availability imp ∧
      (p.availability (t.instrument imp s).implementation)[n]? = (p.availability imp)[n]?) ∧
    (∀ d ∈ (t.instrument imp s).implementation.blocks, ∀ a ∈ d.commands,
      a.id ∉ imp.commands.map Command.id → (∃ condition, a.action = .assume condition) ∧
        ∃ n ∈ p.availability imp, imp.Follows d a n ∧
          (p.availability (t.instrument imp s).implementation)[Node.command a.id]? =
            (p.availability imp)[n]?) ∧
    (∀ n, n ∈ p.availability imp ↔
      ∃ block ∈ imp.blocks, imp.Reachable block.id ∧ n ∈ block.nodes) ∧
    (∀ n, n ∈ p.availability (t.instrument imp s).implementation ↔ n ∈ p.availability imp ∨
      ∃ d ∈ (t.instrument imp s).implementation.blocks, ∃ a ∈ d.commands,
        a.id ∉ imp.commands.map Command.id ∧ n = .command a.id) ∧
    ∀ (id : ImplId) (result : Instrumented) (q : Program) (c : Checked),
      p.instrument? t id = some (result, q) → p.check = .ok c →
      p.flowNodes.Nodup → (∀ n ∈ p.flowNodes, p.supply.Issued n) →
      (∀ target, p.implementations[id]? = some target →
        p.supply.HasCommands (t.demand target p.supply)) →
      ∃ c', q.check = .ok c' ∧
        ∀ n ∈ p.flowNodes, c'.registry.availableAt n = c.registry.availableAt n := by
  obtain ⟨headers, ids, hleaves⟩ := Instrumenter.exists_leaves hids t s
  have h := hleaves.leavesNew hroom
  rw [h.implementation_eq]
  have hkeys : ∀ n, n ∈ p.availability imp ↔
      ∃ block ∈ imp.blocks, imp.Reachable block.id ∧ n ∈ block.nodes :=
    fun n ↦ mem_availability_iff hids
  refine ⟨fun block hmem hreach n hn ↦ ⟨(hkeys n).mpr ⟨block, hmem, hreach, hn⟩,
    h.getElem?_availability_placed hids hcommands hold hmem hreach hn⟩,
    fun d hd a ha hnew ↦ ?_, hkeys, fun n ↦ h.mem_availability_placed_iff hids hcommands hold,
    fun id result q c hresult hcheck hnodup hissued hrooms ↦ ?_⟩
  · obtain ⟨block, hmem, hreach, rfl⟩ := Instrumenter.mem_blocks_placed.mp hd
    obtain ⟨n, hn, hfollows⟩ := h.exists_follows hold hmem hreach ha hnew
    exact ⟨(h.assumes_of_not_mem hmem hreach ha hnew).2, n,
      (hkeys n).mpr ⟨block, hmem, hreach, hn⟩, hfollows,
      h.getElem?_availability_of_follows hids hcommands hold hmem hreach hn hfollows⟩
  · obtain ⟨hfault, rfl⟩ := eq_of_check hcheck
    have hvars : q.vars = p.vars := by
      obtain ⟨changed, -, rfl⟩ := exists_of_instrument? hresult
      rfl
    refine ⟨_, check_eq_ok (hvars ▸ hfault), fun n hn ↦ ?_⟩
    have heq := getElem?_allAvailable_instrument hnodup hissued hresult hrooms hn
    unfold Registry.availableAt
    rw [Std.ExtTreeMap.getD_eq_getD_getElem?, Std.ExtTreeMap.getD_eq_getD_getElem?]
    exact congrArg (Option.getD · ∅) heq

/-- A loop around a parallel call, entered with two variables, and an unreachable block. -/
def patrol : Implementation where
  id := ⟨0⟩
  procedure := ⟨0⟩
  name := "patrol"
  ins := []
  outs := []
  locals := [⟨0⟩, ⟨1⟩]
  blocks :=
    [⟨⟨0⟩, "entry", [⟨⟨0⟩, .zero, .assign [⟨0⟩, ⟨1⟩] []⟩], .goto [⟨1⟩], [], .zero⟩,
      ⟨⟨1⟩, "round", [⟨⟨1⟩, .zero, .parCall []⟩], .goto [⟨1⟩], [], .zero⟩,
      ⟨⟨2⟩, "dead", [⟨⟨2⟩, .zero, .parCall []⟩], .goto [⟨1⟩], [], .zero⟩]
  span := .zero

/-- A program with one implementation and two variables, which are local and own permissions of one
domain. -/
def guarding (imp : Implementation) (s : Supply) : Program :=
  let p := (empty.addVar ⟨"first", false, .linear, some "Token", none, .zero⟩).2
  let p := (p.addVar ⟨"second", false, .linear, some "Token", none, .zero⟩).2
  { p with supply := s }.putImplementation imp

/-- A pass that has a program on record. -/
def pass (p : Program) : Instrumenter where
  checked :=
    { vars := p.vars
      globals := p.globals
      signatures := p.signatures
      defaultLayers := ⟨0, p.greatestLayer⟩
      registry := p.registry }
  origins := .empty
  settings := .atLayer 0

/-- A program with the first implementation. -/
def patrolling : Program :=
  guarding patrol ⟨0, 1, 3, 3⟩

theorem availability_instrument_patrol : patrol.blockIds.Nodup ∧
    (patrol.commands.map Command.id).Nodup ∧
    (∀ c ∈ patrol.commands, c.id.index < patrolling.supply.command.toNat) ∧
    patrolling.supply.HasCommands (patrolling.pass.demand patrol patrolling.supply) ∧
    patrolling.flowNodes.Nodup ∧ (∀ n ∈ patrolling.flowNodes, patrolling.supply.Issued n) ∧
    patrolling.check = .ok patrolling.pass.checked ∧
    (∃ d ∈ (patrolling.pass.instrument patrol patrolling.supply).implementation.blocks,
      ∃ a ∈ d.commands, ∃ n, patrol.Follows d a n) ∧
    ∃ result q c', patrolling.instrument? patrolling.pass ⟨0⟩ = some (result, q) ∧
      q.check = .ok c' ∧ (c'.registry.availableAt (.block ⟨1⟩)).toList = [⟨0⟩, ⟨1⟩] := by
  have hroom : patrolling.supply.HasCommands (patrolling.pass.demand patrol patrolling.supply) := by
    decide +kernel
  have hbefore : (patrolling.pass.checked.registry.availableAt (.block ⟨1⟩)).toList =
      [⟨0⟩, ⟨1⟩] := by decide +kernel
  obtain ⟨-, hfollows, -, -, hrecord⟩ := availability_instrument patrolling patrolling.pass patrol
    patrolling.supply (by decide) (by decide) (by decide +kernel) hroom
  obtain ⟨d, hd, a, ha, hnew⟩ :
      ∃ d ∈ (patrolling.pass.instrument patrol patrolling.supply).implementation.blocks,
        ∃ a ∈ d.commands, a.id ∉ patrol.commands.map Command.id := by decide +kernel
  obtain ⟨-, n, -, hn, -⟩ := hfollows d hd a ha hnew
  obtain ⟨c', hcheck', hsame⟩ := hrecord ⟨0⟩ _ _ _ rfl rfl (by decide +kernel) (by decide +kernel)
    fun target htarget ↦ Option.some.inj htarget ▸ hroom
  exact ⟨by decide, by decide, by decide +kernel, hroom, by decide +kernel, by decide +kernel, rfl,
    ⟨d, hd, a, ha, n, hn⟩, _, _, c', rfl, hcheck',
    hsame (.block ⟨1⟩) (by decide +kernel) ▸ hbefore⟩

/-- Two parallel calls after a command that comes before there is anything to be assumed. -/
def daybreak : Implementation where
  id := ⟨0⟩
  procedure := ⟨0⟩
  name := "daybreak"
  ins := []
  outs := []
  locals := [⟨0⟩, ⟨1⟩]
  blocks :=
    [⟨⟨0⟩, "entry", [⟨⟨0⟩, .zero, .havoc []⟩, ⟨⟨1⟩, .zero, .assign [⟨0⟩, ⟨1⟩] []⟩,
      ⟨⟨2⟩, .zero, .parCall []⟩, ⟨⟨3⟩, .zero, .parCall []⟩], .ret, [], .zero⟩]
  span := .zero

/-- A program with that implementation, whose command counter stands at its greatest value. -/
def breaking : Program :=
  guarding daybreak ⟨0, 1, 1, 4294967295⟩

/-- The second of two assumptions gets the number 0 and takes the place of the first command in the
table, if the first of them gets the greatest number. -/
theorem availability_instrument_exhausted : daybreak.blockIds.Nodup ∧
    (daybreak.commands.map Command.id).Nodup ∧
    (∀ c ∈ daybreak.commands, c.id.index < breaking.supply.command.toNat) ∧
    (∃ block ∈ daybreak.blocks, daybreak.Reachable block.id ∧ .command ⟨0⟩ ∈ block.nodes) ∧
    (breaking.availability daybreak)[Node.command ⟨0⟩]?.map (·.toList) = some [] ∧
    (breaking.availability (breaking.pass.instrument daybreak
        breaking.supply).implementation)[Node.command ⟨0⟩]?.map (·.toList) =
      some [⟨0⟩, ⟨1⟩] := by
  refine ⟨by decide, by decide, by decide, ⟨_, List.mem_cons_self, ?_, ?_⟩, ?_, ?_⟩
  all_goals decide +kernel

end Program

end OwnershipFlow
