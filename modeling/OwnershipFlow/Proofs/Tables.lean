import OwnershipFlow.Checked
import OwnershipFlow.Proofs.Availability

/-!
# Tables and records of programs

What is on record for an accepted program is determined by the program (`eq_of_check`), and
whether it is accepted depends on its variables alone (`check_eq_ok`). The analysis of an
implementation depends on the variables and the procedures (`availability_congr`). In the table of
all implementations the entries of one of them count at the points that no other implementation
has entries for (`getElem?_allAvailable_of_not_mem`). Where all blocks and all commands of a program
are distinct (`nodup_flowNodes_iff`), these are all its points
(`getElem?_allAvailable_of_mem_nodes`).
-/

set_option autoImplicit false
set_option relaxedAutoImplicit false

namespace OwnershipFlow.Program

variable {p q : Program} {c : Checked} {imp d : Implementation} {id : ImplId} {n : Node}

/-! ### Accepted programs -/

/-- What is on record for an accepted program, all of whose variables are in order. -/
theorem eq_of_check (h : p.check = .ok c) : (∀ declared ∈ p.vars, declared.fault? = none) ∧
    c = ⟨p.vars, p.globals, p.signatures, ⟨0, p.greatestLayer⟩, p.registry⟩ := by
  unfold check typeError? at h
  cases herror : p.vars.findSome? fun v ↦ v.fault?.map fun fault ↦ TypeError.mk v fault with
  | some e =>
    rw [herror] at h
    cases h
  | none =>
    rw [herror] at h
    cases h
    refine ⟨fun declared hdeclared ↦ ?_, rfl⟩
    exact Option.map_eq_none_iff.mp (List.findSome?_eq_none_iff.mp herror declared hdeclared)

/-- A program is accepted if all its variables are in order. -/
theorem check_eq_ok (h : ∀ declared ∈ p.vars, declared.fault? = none) :
    p.check = .ok ⟨p.vars, p.globals, p.signatures, ⟨0, p.greatestLayer⟩, p.registry⟩ := by
  have hnone : p.typeError? = none :=
    List.findSome?_eq_none_iff.mpr fun declared hdeclared ↦ by rw [h declared hdeclared]; rfl
  rw [check, hnone]

/-! ### Tables -/

/-- The analysis depends on the variables and the procedures of a program only. -/
theorem availability_congr (hvars : q.vars = p.vars) (hprocedures : q.procedures = p.procedures) :
    q.availability = p.availability := by
  obtain ⟨vars, globals, procedures, implementations, supply⟩ := p
  obtain ⟨vars', globals', procedures', implementations', supply'⟩ := q
  obtain rfl : vars' = vars := hvars
  obtain rfl : procedures' = procedures := hprocedures
  -- The entries of commands are made by recursion over the commands, so induction is needed for
  -- them; everything else unfolds to what is the same for both programs.
  have hentries : Availability.commandEntries
        ⟨vars', globals', procedures', implementations', supply'⟩ =
      Availability.commandEntries ⟨vars', globals, procedures', implementations, supply⟩ := by
    funext held commands
    induction commands generalizing held with
    | nil => rfl
    | cons c rest ih => exact congrArg _ (ih _)
  funext imp
  unfold availability Availability.tableOver Availability.blockEntries
  rw [hentries]
  rfl

/-- The entries of an implementation count where no other one has entries. -/
theorem getElem?_allAvailable_of_not_mem (himp : p.implementations[id]? = some imp)
    (hothers : ∀ (id' : ImplId) other, p.implementations[id']? = some other → id' ≠ id →
      n ∉ p.availability other) : p.allAvailable[n]? = (p.availability imp)[n]? := by
  refine getElem?_foldl_union (fun table htable ↦ ?_) ⟨_, List.mem_map_of_mem
    (mem_values_iff.mpr ⟨id, himp⟩), rfl⟩ Std.ExtTreeMap.getElem?_empty
  obtain ⟨other, hother, rfl⟩ := List.mem_map.mp htable
  obtain ⟨id', hother⟩ := mem_values_iff.mp hother
  by_cases hid : id' = id
  · subst hid
    obtain rfl : imp = other := Option.some.inj (himp.symm.trans hother)
    exact .inr rfl
  · exact .inl (Std.ExtTreeMap.getElem?_eq_none (hothers id' other hother hid))

/-! ### Blocks and commands of all implementations -/

/-- The blocks and the commands of all implementations. -/
def flowNodes (p : Program) : List Node :=
  p.implementations.values.flatMap Implementation.flowNodes

theorem mem_flowNodes_iff : n ∈ p.flowNodes ↔ ∃ (id : ImplId) (imp : Implementation),
    p.implementations[id]? = some imp ∧ n ∈ imp.flowNodes := by
  unfold flowNodes
  simp only [List.mem_flatMap, mem_values_iff]
  constructor
  · rintro ⟨imp, ⟨id, himp⟩, hn⟩
    exact ⟨id, imp, himp, hn⟩
  · rintro ⟨id, imp, himp, hn⟩
    exact ⟨imp, ⟨id, himp⟩, hn⟩

/-- They are distinct if no implementation has one twice and no two implementations share one. -/
theorem nodup_flowNodes_iff : p.flowNodes.Nodup ↔
    (∀ (id : ImplId) imp, p.implementations[id]? = some imp → imp.flowNodes.Nodup) ∧
      ∀ (id : ImplId) imp (id' : ImplId) imp', p.implementations[id]? = some imp →
        p.implementations[id']? = some imp' → id ≠ id' → imp.flowNodes.Disjoint imp'.flowNodes :=
  nodup_flatMap_values_iff

/-- An implementation can be put into a program, in place of what is there under its identifier, if
it has its blocks and its commands for itself. -/
theorem nodup_flowNodes_insert (h : p.flowNodes.Nodup) (hnodup : d.flowNodes.Nodup)
    (hnew : ∀ (id : ImplId) imp, p.implementations[id]? = some imp → id ≠ d.id →
      d.flowNodes.Disjoint imp.flowNodes)
    (hq : q.implementations = p.implementations.insert d.id d) : q.flowNodes.Nodup := by
  rw [nodup_flowNodes_iff] at h ⊢
  rw [hq]
  refine ⟨fun id imp himp ↦ ?_, fun id imp id' imp' himp himp' hne ↦ ?_⟩
  · rcases eq_or_of_getElem?_map_insert himp with ⟨-, rfl⟩ | ⟨-, hold⟩
    · exact hnodup
    · exact h.1 id imp hold
  · rcases eq_or_of_getElem?_map_insert himp with ⟨hid, rfl⟩ | ⟨hother, hold⟩
    · rcases eq_or_of_getElem?_map_insert himp' with ⟨hid', -⟩ | ⟨hother', hold'⟩
      · exact absurd (hid.trans hid'.symm) hne
      · exact hnew id' imp' hold' hother'
    · rcases eq_or_of_getElem?_map_insert himp' with ⟨-, rfl⟩ | ⟨-, hold'⟩
      · exact fun n hn hn' ↦ hnew id imp hold hother hn' hn
      · exact h.2 id imp id' imp' hold hold' hne

section Distinct

variable (hnodup : p.flowNodes.Nodup) (himp : p.implementations[id]? = some imp)

include hnodup himp

theorem nodup_of_nodup_flowNodes :
    imp.blockIds.Nodup ∧ (imp.commands.map Command.id).Nodup :=
  Implementation.nodup_flowNodes_iff.mp ((nodup_flowNodes_iff.mp hnodup).1 id imp himp)

/-- Other implementations have no entries at the points of an implementation. -/
theorem not_mem_availability_of_ne (hn : n ∈ imp.nodes) {id' : ImplId} {other : Implementation}
    (hother : p.implementations[id']? = some other) (hne : id' ≠ id) :
    n ∉ p.availability other := by
  intro hin
  obtain ⟨block, hmem, -, hin⟩ :=
    (mem_availability_iff (nodup_of_nodup_flowNodes hnodup hother).1).mp hin
  have hflow : n ∈ other.flowNodes := List.mem_flatMap.mpr ⟨block, hmem, hin⟩
  rcases List.mem_cons.mp hn with rfl | hn
  · -- No table has an entry for an implementation as a whole.
    exact Implementation.implementation_not_mem_flowNodes hflow
  · exact (nodup_flowNodes_iff.mp hnodup).2 _ _ _ _ hother himp hne hflow hn

/-- Each implementation keeps its own entries. -/
theorem getElem?_allAvailable_of_mem_nodes (hn : n ∈ imp.nodes) :
    p.allAvailable[n]? = (p.availability imp)[n]? :=
  getElem?_allAvailable_of_not_mem himp fun _ _ hother hne ↦
    not_mem_availability_of_ne hnodup himp hn hother hne

end Distinct

end OwnershipFlow.Program
