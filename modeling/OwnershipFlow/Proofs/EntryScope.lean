import OwnershipFlow.Proofs.Merging
import OwnershipFlow.Proofs.Scope

/-!
# Scope at the entry of an implementation

The scope at the start of an implementation can be asked for in two ways: at the implementation,
where it is read off the parameters, and at its entry block, where it is what the analysis has found
to be available. Every walk back to the entry block can only take variables away from the parameters
that are owned at entry, so the second scope is part of the first; where no reachable block goes
back to the entry (`EnteredOnce`), there is no such walk and nothing is taken away
(`exists_availability_entry`).

Availability is about local variables. So if the parameters are local, the two scopes are the same,
and with them all that is written at the two points (`disjointnessAt_entry`).
-/

set_option autoImplicit false
set_option relaxedAutoImplicit false

namespace OwnershipFlow

variable {p : Program} {c : Checked} {t : Instrumenter} {encoding : Encoding} {id : ImplId}
  {imp : Implementation} {entry : BlockId} {v : VarId} {globals : Bool}

/-- No reachable block goes back to the entry. -/
def Implementation.EnteredOnce (imp : Implementation) : Prop :=
  ∀ entry, imp.entry? = some entry →
    ∀ block ∈ imp.blocks, imp.Reachable block.id → entry ∉ block.successors

/-- Where no reachable block goes back to the entry, no walk does. -/
theorem Implementation.EnteredOnce.eq_nil (h : imp.EnteredOnce) (hids : imp.blockIds.Nodup)
    (hentry : imp.entry? = some entry) {left : List BlockId}
    (hwalk : Walk imp.targetsOf entry left entry) : left = [] := by
  rcases List.eq_nil_or_concat left with rfl | ⟨before, b, rfl⟩
  · rfl
  · rw [List.concat_eq_append] at hwalk
    obtain ⟨hbefore, edge⟩ := hwalk.of_snoc
    have hreach : imp.Reachable b := ⟨entry, hentry, before, hbefore⟩
    obtain ⟨block, hmem, rfl⟩ := List.mem_map.mp hreach.mem_blockIds
    have hback : entry ∈ block.successors := ((Implementation.mem_targetsOf hids hmem).mp edge).1
    exact absurd hback (h entry hentry block hmem hreach)

namespace Program

theorem mem_heldAtEntry : v ∈ p.heldAtEntry imp ↔
    v ∈ imp.ins ∧ p.isTracked v = true ∧ (p.kind v).ownedAtEntry = true := by
  rw [heldAtEntry, mem_set_ofList, List.mem_filter, Bool.and_eq_true]

/-- A variable of linear kind is tracked unless it is global. -/
theorem isTracked_iff : p.isTracked v = true ↔
    (p.kind v).isLinear = true ∧ (p.var? v).any Variable.isGlobal = false := by
  unfold isTracked kind
  cases p.var? v with
  | none => simp [LinearKind.isLinear]
  | some declared => simp [Variable.isTracked, and_comm]

/-- The analysis finds at the entry block some of the parameters owned at entry, and all of them if
no reachable block goes back there. -/
theorem exists_availability_entry (hids : imp.blockIds.Nodup)
    (hcommands : (imp.commands.map Command.id).Nodup) (hentry : imp.entry? = some entry) :
    ∃ held, (p.availability imp)[Node.block entry]? = some held ∧
      (∀ v ∈ held, v ∈ p.heldAtEntry imp) ∧
      (imp.EnteredOnce → ∀ v ∈ p.heldAtEntry imp, v ∈ held) := by
  obtain ⟨block, hmem, rfl⟩ := List.mem_map.mp (Implementation.entry_mem_blockIds hentry)
  obtain ⟨held, hheld, hmeet, -⟩ := exists_availability (p := p) hids hcommands hmem
    (Implementation.reachable_entry hentry)
  refine ⟨held, hheld, fun v hv ↦ (hmeet v).mp hv _ [] hentry (.nil _), fun honce v hv ↦ ?_⟩
  refine (hmeet v).mpr fun entry left hentry' hwalk ↦ ?_
  obtain rfl : block.id = entry := Option.some.inj (hentry.symm.trans hentry')
  rw [honce.eq_nil hids hentry hwalk]
  exact hv

end Program

namespace Instrumenter

/-- The parameters owned at the entry of an implementation that stands for no other one. -/
theorem heldAt_implementation_iff (horigin : t.origins.get? (.implementation imp.id) = none) :
    t.HeldAt (.implementation imp) v ↔
      v ∈ imp.ins ∧ (t.checked.kind v).ownedAtEntry = true := by
  have hsame : ∀ source signature, t.origins.get? (.implementation imp.id) = some source →
      t.checked.signature? source = some signature → ∀ v, v ∈ signature.ins ↔ v ∈ imp.ins := by
    intro source signature hget
    cases horigin.symm.trans hget
  rw [LinearKind.ownedAtEntry_iff, HeldAt, OwnedParameter, entryParameter_iff_mem hsame]

section Entry

variable (hcheck : p.check = .ok c) (hchecked : t.checked = c.withEncoding encoding)
  (hnodup : p.flowNodes.Nodup) (himp : p.implementations[id]? = some imp)
  (hentry : imp.entry? = some entry)

include hcheck hchecked hnodup himp hentry

/-- What is on record for the entry block of an implementation. -/
theorem exists_availableAt_entry :
    (∀ v ∈ t.checked.registry.availableAt (.block entry), v ∈ p.heldAtEntry imp) ∧
      (imp.EnteredOnce →
        ∀ v ∈ p.heldAtEntry imp, v ∈ t.checked.registry.availableAt (.block entry)) := by
  obtain ⟨hids, hcommands⟩ := Program.nodup_of_nodup_flowNodes hnodup himp
  obtain ⟨held, hheld, hsub, hsup⟩ :=
    Program.exists_availability_entry (p := p) hids hcommands hentry
  obtain ⟨block, hmem, rfl⟩ := List.mem_map.mp (Implementation.entry_mem_blockIds hentry)
  have hrecord : t.checked.registry.availableAt (.block block.id) = held := by
    have hn : Node.block block.id ∈ imp.nodes :=
      List.mem_cons_of_mem _ (List.mem_flatMap.mpr ⟨block, hmem, List.mem_cons_self⟩)
    have hall := Program.getElem?_allAvailable_of_mem_nodes hnodup himp hn
    rw [hchecked, (Program.eq_of_check hcheck).2]
    show p.allAvailable.getD _ _ = held
    rw [Std.ExtTreeMap.getD_eq_getD_getElem?, hall, hheld, Option.getD_some]
  rw [hrecord]
  exact ⟨hsub, hsup⟩

variable (horigin : t.origins.get? (.implementation imp.id) = none)
  (hblock : t.origins.get? (.block entry) = none)

include horigin hblock

/-- What is available at the entry block is owned at the entry of the implementation. -/
theorem heldAt_implementation_of_entry (h : t.HeldAt (.block entry) v) :
    t.HeldAt (.implementation imp) v := by
  have havailable := h.1
  rw [Origins.resolve_of_get?_eq_none hblock] at havailable
  obtain ⟨hins, -, howned⟩ := Program.mem_heldAtEntry.mp
    ((exists_availableAt_entry hcheck hchecked hnodup himp hentry).1 v havailable)
  refine (heldAt_implementation_iff horigin).mpr ⟨hins, ?_⟩
  rw [hchecked, (Program.eq_of_check hcheck).2]
  exact howned

/-- Local parameters that are owned at entry are available at the entry block, if no reachable block
goes back there. -/
theorem heldAt_entry_iff (hlocal : ∀ v ∈ imp.ins, t.checked.isGlobal v = false)
    (honce : imp.EnteredOnce) :
    t.HeldAt (.block entry) v ↔ t.HeldAt (.implementation imp) v := by
  refine ⟨heldAt_implementation_of_entry hcheck hchecked hnodup himp hentry horigin hblock,
    fun h ↦ ?_⟩
  obtain ⟨hins, howned⟩ := (heldAt_implementation_iff horigin).mp h
  have hv := hlocal v hins
  refine ⟨?_, hv⟩
  rw [Origins.resolve_of_get?_eq_none hblock]
  refine (exists_availableAt_entry hcheck hchecked hnodup himp hentry).2 honce v ?_
  rw [hchecked, (Program.eq_of_check hcheck).2] at howned hv
  exact Program.mem_heldAtEntry.mpr ⟨hins,
    Program.isTracked_iff.mpr ⟨LinearKind.isLinear_of_ownedAtEntry howned, hv⟩, howned⟩

end Entry

/-- In an accepted program with distinct blocks and commands, the scope at the entry block of an
implementation is part of the scope at the implementation, in each domain. If its parameters are
local and no reachable block goes back to the entry, the predicates and the unions at the two points
are the same, under every encoding and all settings. -/
theorem disjointnessAt_entry (p : Program) (c : Checked) (encoding : Encoding) (t : Instrumenter)
    (hcheck : p.check = .ok c) (hchecked : t.checked = c.withEncoding encoding)
    (hnodup : p.flowNodes.Nodup) (id : ImplId) (imp : Implementation) (entry : BlockId)
    (himp : p.implementations[id]? = some imp) (hentry : imp.entry? = some entry)
    (horigin : t.origins.get? (.implementation imp.id) = none)
    (hblock : t.origins.get? (.block entry) = none) :
    ((∀ v ∈ imp.ins, t.checked.isGlobal v = false) → imp.EnteredOnce →
      (∀ globals, t.disjointnessAt (.implementation imp) globals =
        t.disjointnessAt (.block entry) globals) ∧
      t.permissionUnions (.implementation imp) = t.permissionUnions (.block entry)) ∧
    ∀ globals d, (t.scope (.block entry) globals).filter
        (t.checked.registry.domainOf? · = some d) ⊆
      (t.scope (.implementation imp) globals).filter
        (t.checked.registry.domainOf? · = some d) := by
  refine ⟨fun hlocal honce ↦ ?_, fun globals d v hv ↦ ?_⟩
  · have hscope : ∀ globals v, v ∈ t.scope (.implementation imp) globals ↔
        v ∈ t.scope (.block entry) globals := by
      intro globals v
      rw [mem_scope_iff, mem_scope_iff, Within, Within, heldAt_entry_iff hcheck hchecked hnodup himp
        hentry horigin hblock hlocal honce]
    refine ⟨fun globals ↦ disjointness_congr (hscope globals), ?_⟩
    unfold permissionUnions
    simp only [permissions_congr (hscope true)]
  · rw [List.mem_filter, mem_scope_iff] at hv ⊢
    exact ⟨⟨hv.1.1.imp_left (heldAt_implementation_of_entry hcheck hchecked hnodup himp hentry
      horigin hblock), hv.1.2⟩, hv.2⟩

/-- An implementation that takes two variables, loses one of them and goes back to its entry. -/
def returning : Implementation where
  id := ⟨0⟩
  procedure := ⟨0⟩
  name := "return"
  ins := [⟨1⟩, ⟨0⟩, ⟨1⟩]
  outs := []
  locals := []
  blocks := [⟨⟨0⟩, "again", [⟨⟨0⟩, .zero, .havoc [⟨0⟩]⟩], .goto [⟨0⟩], [], .zero⟩]
  span := .zero

/-- An implementation that takes the same variables and does not go back to its entry. -/
def leaving : Implementation :=
  { returning with
    id := ⟨1⟩
    blocks := [⟨⟨1⟩, "once", [⟨⟨1⟩, .zero, .havoc [⟨0⟩]⟩], .ret, [], .zero⟩] }

/-- A program with both implementations. -/
def visiting : Program :=
  let p := (Program.empty.addVar ⟨"left", false, .linear, some "Token", none, .zero⟩).2
  let p := (p.addVar ⟨"right", false, .linearIn, some "Token", none, .zero⟩).2
  (p.putImplementation returning).putImplementation leaving

/-- What is known about that program. -/
def visitors : Checked where
  vars := visiting.vars
  globals := visiting.globals
  signatures := visiting.signatures
  defaultLayers := ⟨0, visiting.greatestLayer⟩
  registry := visiting.registry

theorem disjointnessAt_entry_visiting : visiting.check = .ok visitors ∧ visiting.flowNodes.Nodup ∧
    leaving.EnteredOnce ∧ (∀ v ∈ leaving.ins, visitors.isGlobal v = false) ∧
    let t : Instrumenter := ⟨visitors.withEncoding .separation, .empty, .atLayer 0⟩
    t.disjointnessAt (.implementation leaving) true = t.disjointnessAt (.block ⟨1⟩) true ∧
    t.disjointnessAt (.block ⟨1⟩) true = [.app "separate" [.var ⟨0⟩, .var ⟨1⟩]] ∧
    ¬ returning.EnteredOnce ∧ ⟨1⟩ ∈ t.scope (.implementation returning) true ∧
    ⟨0⟩ ∈ t.scope (.implementation returning) true ∧ ⟨0⟩ ∉ t.scope (.block ⟨0⟩) true := by
  have honce : leaving.EnteredOnce := by
    intro entry hentry block hmem _
    obtain rfl : (⟨1⟩ : BlockId) = entry := Option.some.inj hentry
    obtain rfl := List.mem_singleton.mp hmem
    decide
  have hreturns : ¬ returning.EnteredOnce := fun h ↦ h ⟨0⟩ rfl _ List.mem_cons_self
    (Implementation.reachable_entry rfl) (by decide)
  obtain ⟨hsame, -⟩ := disjointnessAt_entry visiting visitors .separation
    ⟨visitors.withEncoding .separation, .empty, .atLayer 0⟩ rfl rfl (by decide +kernel) ⟨1⟩ leaving
    ⟨1⟩ (by decide +kernel) rfl (Origins.get?_empty _) (Origins.get?_empty _)
  obtain ⟨-, hpart⟩ := disjointnessAt_entry visiting visitors .separation
    ⟨visitors.withEncoding .separation, .empty, .atLayer 0⟩ rfl rfl (by decide +kernel) ⟨0⟩
    returning ⟨0⟩ (by decide +kernel) rfl (Origins.get?_empty _) (Origins.get?_empty _)
  have hlocal : ∀ v ∈ leaving.ins, visitors.isGlobal v = false := by decide +kernel
  refine ⟨rfl, by decide +kernel, honce, hlocal, (hsame hlocal honce).1 true, by decide +kernel,
    hreturns, ?_, by decide +kernel, by decide +kernel⟩
  exact (List.mem_filter.mp (hpart true ⟨0⟩ (a := ⟨1⟩) (by decide +kernel))).1

end Instrumenter

end OwnershipFlow
