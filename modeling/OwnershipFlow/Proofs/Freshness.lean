import Mathlib.Logic.Relation
import OwnershipFlow.Proofs.Preservation
import OwnershipFlow.Proofs.Reanalysis

/-!
# Identifiers are never used twice

In a well-formed program every record stands under its own identifier, no two blocks and no two
commands of any implementations share an identifier, and all identifiers, targets of transfers
included, have been taken from the supply (`Program.WellFormed`). A program that is built up, copied
from, pruned and instrumented in any order stays well-formed, however much is done, as long as no
counter passes its greatest value (`wellFormed_of_steps`).

Each step touches one implementation at most. What it leaves of that one is put in the place of
what was there, and the program stays well-formed if the identifiers left are distinct, have been
handed out, and occur in no other implementation (`WellFormed.insert`). For a copy this holds since
all of its identifiers are new, for an implementation with blocks removed since none is new, and
for an instrumented one since each is old or new (`LeavesNew.issuedBy`).
-/

set_option autoImplicit false
set_option relaxedAutoImplicit false

namespace OwnershipFlow

variable {p q : Program} {imp d : Implementation} {s u : Supply} {t : Instrumenter} {id : ImplId}
  {n : Node}

/-! ### Supplies that are used up further -/

namespace Supply

/-- One more identifier of some sort has been taken, and its counter has not passed its greatest
value. -/
inductive Draws : Supply → Supply → Prop
  | procedure (s : Supply) (hroom : s.procedure.toNat + 1 < UInt32.size) :
      Draws s s.freshProcedure.2
  | implementation (s : Supply) (hroom : s.implementation.toNat + 1 < UInt32.size) :
      Draws s s.freshImplementation.2
  | block (s : Supply) (hroom : s.block.toNat + 1 < UInt32.size) : Draws s s.freshBlock.2
  | command (s : Supply) (hroom : s.command.toNat + 1 < UInt32.size) : Draws s s.freshCommand.2

/-- Whatever a supply has handed out, another one has handed out too. -/
def Precedes (s u : Supply) : Prop :=
  ∀ n, s.Issued n → u.Issued n

theorem Precedes.refl (s : Supply) : s.Precedes s :=
  fun _ h ↦ h

/-- What is below a counter stays below it, and so does the number that is taken next. -/
theorem lt_toNat_succ {next : UInt32} {number : Nat} (hroom : next.toNat + 1 < UInt32.size)
    (h : number ≤ next.toNat) : number < (next + 1).toNat :=
  (Nat.lt_succ_of_le h).trans_eq (toNat_add_ofNat (n := 1) hroom).symm

theorem Draws.precedes (h : s.Draws u) : s.Precedes u := by
  intro n hn
  cases h <;> cases n <;> first | exact hn | exact lt_toNat_succ ‹_› (Nat.le_of_lt hn)

theorem precedes_skipCommands {count : Nat} (hroom : s.HasCommands count) :
    s.Precedes (s.skipCommands count) := by
  intro n hn
  cases n with
  | command id => exact (Nat.lt_add_right count hn).trans_eq (command_skipCommands hroom).symm
  | _ => exact hn

end Supply

namespace Implementation

theorem IssuedBy.mono (h : imp.IssuedBy s) (hsupply : s.Precedes u) : imp.IssuedBy u :=
  ⟨fun n hn ↦ hsupply n (h.1 n hn), fun b hb target ht ↦ hsupply _ (h.2 b hb target ht)⟩

theorem disjoint_flowNodes_iff : imp.flowNodes.Disjoint d.flowNodes ↔
    imp.blockIds.Disjoint d.blockIds ∧
    (imp.commands.map Command.id).Disjoint (d.commands.map Command.id) := by
  constructor
  · intro h
    refine ⟨fun b hb hb' ↦ ?_, fun c hc hc' ↦ ?_⟩
    · exact h (mem_flowNodes_iff.mpr (.inl ⟨b, hb, rfl⟩))
        (mem_flowNodes_iff.mpr (.inl ⟨b, hb', rfl⟩))
    · exact h (mem_flowNodes_iff.mpr (.inr ⟨c, hc, rfl⟩))
        (mem_flowNodes_iff.mpr (.inr ⟨c, hc', rfl⟩))
  · rintro ⟨hblocks, hcommands⟩ n hn hn'
    rcases mem_flowNodes_iff.mp hn with ⟨b, hb, rfl⟩ | ⟨c, hc, rfl⟩
    · exact hblocks hb (block_mem_nodes_iff.mp (List.mem_cons_of_mem _ hn'))
    · exact hcommands hc (command_mem_nodes_iff.mp (List.mem_cons_of_mem _ hn'))

end Implementation

namespace Program

/-! ### Well-formed programs -/

/-- Records stand under their identifiers, blocks and commands have identifiers of their own over
all implementations, and all identifiers have been handed out. -/
structure WellFormed (p : Program) : Prop where
  procedure_id : ∀ (id : ProcId) declared, p.procedures[id]? = some declared → declared.id = id
  implementation_id : ∀ (id : ImplId) imp, p.implementations[id]? = some imp → imp.id = id
  nodup_blocks : (p.implementations.values.flatMap Implementation.blockIds).Nodup
  nodup_commands : (p.implementations.values.flatMap fun imp ↦ imp.commands.map Command.id).Nodup
  issued : ∀ n ∈ p.nodes, p.supply.Issued n
  issued_targets : ∀ imp ∈ p.implementations.values, ∀ b ∈ imp.blocks, ∀ target ∈ b.successors,
    p.supply.Issued (.block target)

namespace WellFormed

/-- All blocks and commands are distinct. -/
theorem nodup_flowNodes (h : p.WellFormed) : p.flowNodes.Nodup := by
  obtain ⟨hblocks, hblocks'⟩ := nodup_flatMap_values_iff.mp h.nodup_blocks
  obtain ⟨hcommands, hcommands'⟩ := nodup_flatMap_values_iff.mp h.nodup_commands
  refine nodup_flowNodes_iff.mpr
    ⟨fun id imp himp ↦ ?_, fun id imp id' imp' himp himp' hne ↦ ?_⟩
  · exact Implementation.nodup_flowNodes_iff.mpr ⟨hblocks id imp himp, hcommands id imp himp⟩
  · exact Implementation.disjoint_flowNodes_iff.mpr
      ⟨hblocks' id imp id' imp' himp himp' hne, hcommands' id imp id' imp' himp himp' hne⟩

theorem issuedBy (h : p.WellFormed) (himp : p.implementations[id]? = some imp) :
    imp.IssuedBy p.supply := by
  have hvalue := mem_values_iff.mpr ⟨id, himp⟩
  refine ⟨fun n hn ↦ h.issued n ?_, h.issued_targets imp hvalue⟩
  exact List.mem_append_right _ (List.mem_flatMap.mpr ⟨imp, hvalue, hn⟩)

theorem issued_procedure (h : p.WellFormed) {id : ProcId} (hid : id ∈ p.procedures) :
    p.supply.Issued (.procedure id) :=
  h.issued _ (List.mem_append_left _ (List.mem_map_of_mem (Std.ExtTreeMap.mem_keys.mpr hid)))

end WellFormed

/-- A program is well-formed if its blocks and commands are distinct. -/
theorem wellFormed_of_nodup (hnodup : p.flowNodes.Nodup)
    (hprocedure : ∀ (id : ProcId) declared, p.procedures[id]? = some declared → declared.id = id)
    (hkey : ∀ (id : ImplId) imp, p.implementations[id]? = some imp → imp.id = id)
    (hprocedures : ∀ id ∈ p.procedures, p.supply.Issued (.procedure id))
    (hissued : ∀ (id : ImplId) imp, p.implementations[id]? = some imp → imp.IssuedBy p.supply) :
    p.WellFormed where
  procedure_id := hprocedure
  implementation_id := hkey
  nodup_blocks := by
    refine nodup_flatMap_values_iff.mpr ⟨fun id imp himp ↦ (nodup_of_nodup_flowNodes hnodup himp).1,
      fun id imp id' imp' himp himp' hne ↦ ?_⟩
    exact (Implementation.disjoint_flowNodes_iff.mp
      ((nodup_flowNodes_iff.mp hnodup).2 id imp id' imp' himp himp' hne)).1
  nodup_commands := by
    refine nodup_flatMap_values_iff.mpr ⟨fun id imp himp ↦ (nodup_of_nodup_flowNodes hnodup himp).2,
      fun id imp id' imp' himp himp' hne ↦ ?_⟩
    exact (Implementation.disjoint_flowNodes_iff.mp
      ((nodup_flowNodes_iff.mp hnodup).2 id imp id' imp' himp himp' hne)).2
  issued := by
    intro n hn
    rcases List.mem_append.mp hn with hn | hn
    · obtain ⟨id, hid, rfl⟩ := List.mem_map.mp hn
      exact hprocedures id (Std.ExtTreeMap.mem_keys.mp hid)
    · obtain ⟨imp, hvalue, hn⟩ := List.mem_flatMap.mp hn
      obtain ⟨id, himp⟩ := mem_values_iff.mp hvalue
      exact (hissued id imp himp).1 n hn
  issued_targets := by
    intro imp hvalue
    obtain ⟨id, himp⟩ := mem_values_iff.mp hvalue
    exact (hissued id imp himp).2

namespace WellFormed

/-- An implementation can be put into a well-formed program, in place of what is there under its
identifier, if its identifiers are distinct, handed out, and in no other implementation. -/
theorem insert (h : p.WellFormed) (hsupply : p.supply.Precedes s) (hnodup : d.flowNodes.Nodup)
    (hissued : d.IssuedBy s) (hnew : ∀ (id : ImplId) imp, p.implementations[id]? = some imp →
      id ≠ d.id → d.flowNodes.Disjoint imp.flowNodes) :
    WellFormed { p with implementations := p.implementations.insert d.id d, supply := s } := by
  refine wellFormed_of_nodup (nodup_flowNodes_insert h.nodup_flowNodes hnodup hnew rfl)
    h.procedure_id (fun id imp himp ↦ ?_) (fun id hid ↦ hsupply _ (h.issued_procedure hid))
    fun id imp himp ↦ ?_
  · rcases eq_or_of_getElem?_map_insert himp with ⟨rfl, rfl⟩ | ⟨-, hold⟩
    · rfl
    · exact h.implementation_id id imp hold
  · rcases eq_or_of_getElem?_map_insert himp with ⟨-, rfl⟩ | ⟨-, hold⟩
    · exact hissued
    · exact (h.issuedBy hold).mono hsupply

/-- Taking identifiers from the supply changes nothing else. -/
theorem draw (h : p.WellFormed) (hsupply : p.supply.Precedes s) :
    WellFormed { p with supply := s } :=
  wellFormed_of_nodup h.nodup_flowNodes h.procedure_id h.implementation_id
    (fun _ hid ↦ hsupply _ (h.issued_procedure hid)) fun _ _ himp ↦ (h.issuedBy himp).mono hsupply

/-- New points are in no implementation. -/
theorem disjoint_of_new (h : p.WellFormed) (hnew : ∀ n ∈ d.nodes, ¬ p.supply.Issued n)
    (himp : p.implementations[id]? = some imp) : d.flowNodes.Disjoint imp.flowNodes :=
  fun n hn hn' ↦ hnew n (List.mem_cons_of_mem _ hn)
    ((h.issuedBy himp).1 n (List.mem_cons_of_mem _ hn'))

end WellFormed

/-! ### Programs that are built up -/

theorem wellFormed_empty : Program.empty.WellFormed := by
  refine wellFormed_of_nodup (nodup_flowNodes_iff.mpr ⟨?_, ?_⟩) ?_ ?_ ?_ ?_ <;> simp [empty]

theorem WellFormed.addVar (h : p.WellFormed) (v : Variable) : (p.addVar v).2.WellFormed :=
  ⟨h.procedure_id, h.implementation_id, h.nodup_blocks, h.nodup_commands, h.issued,
    h.issued_targets⟩

theorem WellFormed.addProcedure (h : p.WellFormed) (name : String) (ins outs : List VarId)
    (span : Span) (hroom : p.supply.procedure.toNat + 1 < UInt32.size) :
    (p.addProcedure name ins outs span).2.WellFormed := by
  have hsupply : p.supply.Precedes p.supply.freshProcedure.2 :=
    (Supply.Draws.procedure _ hroom).precedes
  refine wellFormed_of_nodup h.nodup_flowNodes (fun id declared hdeclared ↦ ?_)
    h.implementation_id (fun id hid ↦ ?_) fun _ _ himp ↦ (h.issuedBy himp).mono hsupply
  · rcases eq_or_of_getElem?_map_insert hdeclared with ⟨rfl, rfl⟩ | ⟨-, hold⟩
    · rfl
    · exact h.procedure_id id declared hold
  · rcases mem_map_insert.mp hid with rfl | hid
    · exact Supply.lt_toNat_succ hroom (Nat.le_refl _)
    · exact hsupply _ (h.issued_procedure hid)

/-- Blocks may become an implementation of a program: their identifiers and those of their commands
have been taken from the supply, each for one use, and so have their targets. -/
structure Admits (p : Program) (blocks : List Block) : Prop where
  nodup : (blocks.flatMap Block.nodes).Nodup
  issued : ∀ n ∈ blocks.flatMap Block.nodes, p.supply.Issued n
  unused : ∀ n ∈ blocks.flatMap Block.nodes, n ∉ p.flowNodes
  issued_targets : ∀ b ∈ blocks, ∀ target ∈ b.successors, p.supply.Issued (.block target)

theorem WellFormed.addImplementation (h : p.WellFormed) {procedure : ProcId} {locals : List VarId}
    {blocks : List Block} (hroom : p.supply.implementation.toNat + 1 < UInt32.size)
    (hadmits : p.Admits blocks)
    (hadd : p.addImplementation? procedure locals blocks = some (id, q)) : q.WellFormed := by
  obtain ⟨declared, -, heq⟩ := Option.map_eq_some_iff.mp hadd
  cases heq
  have hsupply : p.supply.Precedes p.supply.freshImplementation.2 :=
    (Supply.Draws.implementation _ hroom).precedes
  refine h.insert hsupply hadmits.nodup ⟨fun n hn ↦ ?_, ?_⟩ fun id' imp himp _ n hn hn' ↦ ?_
  · rcases List.mem_cons.mp hn with rfl | hn
    · exact Supply.lt_toNat_succ hroom (Nat.le_refl _)
    · exact hsupply n (hadmits.issued n hn)
  · exact fun b hb target ht ↦ hsupply _ (hadmits.issued_targets b hb target ht)
  · exact hadmits.unused n hn (mem_flowNodes_iff.mpr ⟨id', imp, himp, hn'⟩)

/-! ### Programs that are changed -/

theorem WellFormed.copyImplementation (h : p.WellFormed) {source derived : Implementation}
    {links : List (Node × Node)} (hsource : p.implementations[id]? = some source)
    (hfits : source.FitsIn p.supply)
    (hcopy : p.copyImplementation? id = some (derived, links, q)) : q.WellFormed := by
  obtain ⟨present, hpresent, rfl, -, rfl⟩ := getElem?_of_copyImplementation? hcopy
  obtain rfl : source = present := Option.some.inj (hsource.symm.trans hpresent)
  have hids := (nodup_of_nodup_flowNodes h.nodup_flowNodes hsource).1
  have hnew : ∀ n ∈ (source.copy p.supply).1.nodes,
      ¬ p.supply.Issued n ∧ (source.copy p.supply).2.Issued n :=
    fun n hn ↦ Implementation.mem_nodes_copy hids hfits hn
  refine h.insert (fun n hn ↦ Implementation.issued_copy hfits hn)
    (List.nodup_cons.mp (Implementation.nodup_nodes_copy hids hfits)).2
    ⟨fun n hn ↦ (hnew n hn).2, Implementation.issued_target_copy hids hfits (h.issuedBy hsource).2⟩
    fun id' imp himp _ ↦ h.disjoint_of_new (fun n hn ↦ (hnew n hn).1) himp

/-- What is left of an implementation has no points but those of the implementation, and leads where
that led. -/
structure Remains (imp d : Implementation) : Prop where
  id_eq : d.id = imp.id
  flowNodes : d.flowNodes.Sublist imp.flowNodes
  successors : ∀ b ∈ d.blocks, ∃ b' ∈ imp.blocks, b.successors = b'.successors

theorem remains_prune : Remains imp imp.prune := by
  rw [Implementation.prune_eq]
  refine ⟨rfl, List.filter_sublist.flatMap _, fun b hb ↦ ⟨b, ?_, rfl⟩⟩
  exact (List.mem_filter.mp hb).1

theorem remains_recordPredecessors (hids : imp.blockIds.Nodup) :
    Remains imp imp.recordPredecessors := by
  rw [Implementation.recordPredecessors_eq hids]
  refine ⟨rfl, ?_, fun d hd ↦ ?_⟩
  · have hnodes : (imp.mapBlocks fun b ↦
        { b with predecessors := imp.predecessorsOf b.id }).flowNodes = imp.flowNodes := by
      rw [Implementation.flowNodes, Implementation.mapBlocks, List.flatMap_map]
      rfl
    rw [hnodes]
  · obtain ⟨b, hb, rfl⟩ := List.mem_map.mp hd
    exact ⟨b, hb, rfl⟩

theorem WellFormed.modifyImplementation (h : p.WellFormed)
    {f : Implementation → Implementation}
    (hf : ∀ imp, imp.blockIds.Nodup → Remains imp (f imp)) :
    (p.modifyImplementation id f).WellFormed := by
  unfold Program.modifyImplementation
  cases himp : p.implementations[id]? with
  | none =>
    rw [modify_eq_self himp]
    exact h
  | some imp =>
    have hnodup := (nodup_flowNodes_iff.mp h.nodup_flowNodes).1 id imp himp
    have hissued := h.issuedBy himp
    have hremains := hf imp (nodup_of_nodup_flowNodes h.nodup_flowNodes himp).1
    have hid : (f imp).id = id := hremains.id_eq.trans (h.implementation_id id imp himp)
    rw [modify_eq_insert himp, ← hid]
    refine h.insert (.refl _) (hnodup.sublist hremains.flowNodes)
      ⟨fun n hn ↦ ?_, fun b hb target ht ↦ ?_⟩ fun id' imp' himp' hne n hn hn' ↦ ?_
    · rcases List.mem_cons.mp hn with rfl | hn
      · exact hissued.1 _ (Implementation.implementation_mem_nodes_iff.mpr hremains.id_eq)
      · exact hissued.1 n (List.mem_cons_of_mem _ (hremains.flowNodes.subset hn))
    · obtain ⟨b', hb', heq⟩ := hremains.successors b hb
      exact hissued.2 b' hb' target (heq ▸ ht)
    · exact (nodup_flowNodes_iff.mp h.nodup_flowNodes).2 id imp id' imp' himp himp' (hid ▸ hne.symm)
        (hremains.flowNodes.subset hn) hn'

end Program

namespace Instrumenter

variable {headers : List BlockId} {ids : BlockId → List CommandId}

theorem id_placed : (t.placed imp headers ids).id = imp.id := by
  rw [placed, Implementation.mapBlocks_prune]

namespace LeavesNew

/-- The blocks and the commands of an instrumented implementation are old, or new and taken from the
supply. -/
theorem mem_flowNodes_placed (h : t.LeavesNew imp s headers ids)
    (hn : n ∈ (t.placed imp headers ids).flowNodes) :
    n ∈ imp.flowNodes ∨ ¬ s.Issued n ∧ (t.instrument imp s).supply.Issued n := by
  rw [Implementation.mem_flowNodes_iff, blockIds_placed] at hn
  rcases hn with ⟨b, hb, rfl⟩ | ⟨c, hc, rfl⟩
  · exact .inl (Implementation.mem_flowNodes_iff.mpr
      (.inl ⟨b, (Implementation.mem_blockIds_prune_iff.mp hb).mem_blockIds, rfl⟩))
  · obtain ⟨a, ha, rfl⟩ := List.mem_map.mp hc
    obtain ⟨d, hd, ha⟩ := List.mem_flatMap.mp ha
    obtain ⟨b, hb, hreach, rfl⟩ := mem_blocks_placed.mp hd
    have hkept := Implementation.mem_blocks_prune_iff.mpr ⟨hb, hreach⟩
    have hid := (map_id_commands_place_perm (h.length_eq b hkept)).subset (List.mem_map_of_mem ha)
    rcases List.mem_append.mp hid with hid | hid
    · obtain ⟨c, hc, hid⟩ := List.mem_map.mp hid
      refine .inl (Implementation.mem_flowNodes_iff.mpr (.inr ⟨a.id, ?_, rfl⟩))
      exact hid ▸ List.mem_map_of_mem (Implementation.mem_commands hb hc)
    · exact .inr ⟨Nat.not_lt.mpr (h.new b hkept a.id hid), h.issued b hkept a.id hid⟩

/-- All identifiers of an instrumented implementation have been handed out. -/
theorem issuedBy (h : t.LeavesNew imp s headers ids)
    (hsupply : s.Precedes (t.instrument imp s).supply) (hissued : imp.IssuedBy s) :
    (t.placed imp headers ids).IssuedBy (t.instrument imp s).supply := by
  refine ⟨fun n hn ↦ ?_, fun d hd target ht ↦ hsupply _ ?_⟩
  · rcases List.mem_cons.mp hn with rfl | hn
    · exact hsupply _ (hissued.1 _ (Implementation.implementation_mem_nodes_iff.mpr id_placed))
    · rcases h.mem_flowNodes_placed hn with hold | hnew
      · exact hsupply n (hissued.1 n (List.mem_cons_of_mem _ hold))
      · exact hnew.2
  · obtain ⟨b, hb, -, rfl⟩ := mem_blocks_placed.mp hd
    exact hissued.2 b hb target ht

end LeavesNew

end Instrumenter

namespace Program

theorem WellFormed.instrument (h : p.WellFormed) {result : Instrumented}
    (himp : p.implementations[id]? = some imp)
    (hroom : p.supply.HasCommands (t.demand imp p.supply))
    (hpass : p.instrument? t id = some (result, q)) : q.WellFormed := by
  obtain ⟨present, hpresent, rfl⟩ := exists_of_instrument? hpass
  obtain rfl : imp = present := Option.some.inj (himp.symm.trans hpresent)
  obtain ⟨hids, hcommands⟩ := nodup_of_nodup_flowNodes h.nodup_flowNodes himp
  have hissued := h.issuedBy himp
  obtain ⟨headers, ids, hleaves⟩ := Instrumenter.exists_leaves hids t p.supply
  replace hleaves := hleaves.leavesNew hroom
  have hsupply : p.supply.Precedes (t.instrument imp p.supply).supply :=
    hleaves.supply_eq ▸ Supply.precedes_skipCommands hroom
  have hid : (t.placed imp headers ids).id = id :=
    Instrumenter.id_placed.trans (h.implementation_id id imp himp)
  rw [hleaves.implementation_eq, ← hid]
  have hnodup : (t.placed imp headers ids).flowNodes.Nodup := Implementation.nodup_flowNodes_iff.mpr
    ⟨Instrumenter.LeavesNew.nodup_blockIds_placed hids,
      hleaves.nodup_commands_placed hcommands hissued.index_lt⟩
  refine h.insert hsupply hnodup (hleaves.issuedBy hsupply hissued)
    fun id' imp' himp' hne n hn hn' ↦ ?_
  -- Other implementations have none of the old points, and cannot have a new one.
  rcases hleaves.mem_flowNodes_placed hn with hn | hn
  · exact (nodup_flowNodes_iff.mp h.nodup_flowNodes).2 id imp id' imp' himp himp' (hid ▸ hne.symm)
      hn hn'
  · exact hn.1 ((h.issuedBy himp').1 n (List.mem_cons_of_mem _ hn'))

/-! ### Histories -/

/-- One operation on a program: a declaration, a body for a procedure, identifiers taken for later
use, a copy that is put in under its identifier, blocks removed, predecessors recorded, or a pass of
any instrumenter with either verdict. No counter passes its greatest value. -/
inductive Step : Program → Program → Prop
  | addVar (p : Program) (v : Variable) : Step p (p.addVar v).2
  | addProcedure (p : Program) (name : String) (ins outs : List VarId) (span : Span)
      (hroom : p.supply.procedure.toNat + 1 < UInt32.size) :
      Step p (p.addProcedure name ins outs span).2
  | addImplementation {p q : Program} (procedure : ProcId) (locals : List VarId)
      {blocks : List Block} {id : ImplId} (hroom : p.supply.implementation.toNat + 1 < UInt32.size)
      (hadmits : p.Admits blocks)
      (hadd : p.addImplementation? procedure locals blocks = some (id, q)) : Step p q
  | draw {p : Program} {s : Supply} (hdraw : p.supply.Draws s) : Step p { p with supply := s }
  | copy {p q : Program} (id : ImplId) {source derived : Implementation}
      {links : List (Node × Node)} (hsource : p.implementations[id]? = some source)
      (hfits : source.FitsIn p.supply)
      (hcopy : p.copyImplementation? id = some (derived, links, q)) : Step p q
  | prune (p : Program) (id : ImplId) : Step p (p.modifyImplementation id Implementation.prune)
  | recordPredecessors (p : Program) (id : ImplId) :
      Step p (p.modifyImplementation id Implementation.recordPredecessors)
  | instrument {p q : Program} (t : Instrumenter) (id : ImplId) {imp : Implementation}
      {result : Instrumented} (himp : p.implementations[id]? = some imp)
      (hroom : p.supply.HasCommands (t.demand imp p.supply))
      (hpass : p.instrument? t id = some (result, q)) : Step p q

/-- No operation uses an identifier twice. -/
theorem Step.wellFormed (h : Step p q) (hp : p.WellFormed) : q.WellFormed := by
  cases h with
  | addVar v => exact hp.addVar v
  | addProcedure name ins outs span hroom => exact hp.addProcedure name ins outs span hroom
  | addImplementation _ _ hroom hadmits hadd => exact hp.addImplementation hroom hadmits hadd
  | draw hdraw => exact hp.draw hdraw.precedes
  | copy _ hsource hfits hcopy => exact hp.copyImplementation hsource hfits hcopy
  | prune id => exact hp.modifyImplementation fun _ _ ↦ remains_prune
  | recordPredecessors id =>
    exact hp.modifyImplementation fun _ hids ↦ remains_recordPredecessors hids
  | instrument _ _ himp hroom hpass => exact hp.instrument himp hroom hpass

/-- Whatever is done to the empty program, however often and in whatever order, leaves a well-formed
program, as long as no counter passes its greatest value. -/
theorem wellFormed_of_steps (p : Program) (h : Relation.ReflTransGen Step .empty p) :
    p.WellFormed := by
  induction h with
  | refl => exact wellFormed_empty
  | tail _ hstep ih => exact hstep.wellFormed ih

/-- A program with a procedure, and with identifiers taken for three blocks and two commands. -/
def drafted : Program :=
  { (empty.addProcedure "spin" [] [] .zero).2 with supply := ⟨1, 0, 3, 2⟩ }

theorem steps_drafted : Relation.ReflTransGen Step .empty drafted := by
  have hdeclared : Relation.ReflTransGen Step .empty (empty.addProcedure "spin" [] [] .zero).2 :=
    .single (.addProcedure _ "spin" [] [] .zero (by decide))
  have hblocks := ((hdeclared.tail (.draw (.block _ (by decide)))).tail
    (.draw (.block _ (by decide)))).tail (.draw (.block _ (by decide)))
  exact (hblocks.tail (.draw (.command _ (by decide)))).tail (.draw (.command _ (by decide)))

/-- The procedure gets a loop around a parallel call for a body. The body is copied, and both are
instrumented, the copy after its unreachable block has been removed. -/
theorem wellFormed_of_steps_drafted : ∃ p, Relation.ReflTransGen Step .empty p ∧
    p.supply = ⟨1, 2, 6, 9⟩ ∧ p.implementations.size = 2 ∧ p.WellFormed := by
  have hadmits : drafted.Admits Instrumenter.spinning.blocks :=
    ⟨by decide, by decide, by decide +kernel, by decide⟩
  have hbody := steps_drafted.tail (.addImplementation ⟨0⟩ [] (by decide) hadmits rfl)
  have hcopy := hbody.tail (.copy ⟨0⟩ rfl (by decide +kernel) rfl)
  have hfirst := hcopy.tail (.instrument Instrumenter.observer ⟨0⟩ rfl (by decide +kernel) rfl)
  have hpruned := (hfirst.tail (.prune _ ⟨1⟩)).tail (.recordPredecessors _ ⟨1⟩)
  have hsecond := hpruned.tail
    (.instrument Instrumenter.observer ⟨1⟩ rfl (by decide +kernel) rfl)
  exact ⟨_, hsecond, by decide +kernel, by decide +kernel, wellFormed_of_steps _ hsecond⟩

end Program

end OwnershipFlow
