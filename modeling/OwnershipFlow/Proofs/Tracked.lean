import OwnershipFlow.Permission.Registry
import OwnershipFlow.Proofs.Availability

/-!
# Only tracked variables become available

A variable that the registry has on record for some point is declared, local and of linear kind
(`isTracked_of_mem_availableAt`). Nothing is asked of the program for this: what is on record
comes from the parameters that are tracked and from effects, which gain tracked variables only,
and every revision of the end of a block keeps it so (`TracksOnly`), whether or not identifiers
are distinct.
-/

set_option autoImplicit false
set_option relaxedAutoImplicit false

namespace OwnershipFlow

variable {p : Program} {imp : Implementation} {g : FlowGraph} {held out : VarSet} {b : BlockId}
  {n : Node} {v : VarId}

namespace Availability

variable {ends : Outs}

/-- Only tracked variables are held at the ends of blocks. -/
def TracksOnly (p : Program) (ends : Outs) : Prop :=
  ∀ (b : BlockId) out, ends[b]? = some out → ∀ v ∈ out, p.isTracked v

theorem tracksOnly_empty : TracksOnly p ∅ := by
  intro b out hout
  simp at hout

theorem TracksOnly.revise (h : TracksOnly p ends) : TracksOnly p (revise p imp g ends b) := by
  unfold Availability.revise
  split
  · rename_i block held hblock hheld
    intro x out hout
    rcases eq_or_of_getElem?_map_insert hout with ⟨-, rfl⟩ | ⟨-, hout⟩
    · exact Program.isTracked_of_mem_transferAll (tracked_of_heldAtStart? h hheld)
    · exact h x out hout
  · exact h

theorem TracksOnly.pass (h : TracksOnly p ends) : TracksOnly p (pass p imp g ends) :=
  List.foldlRecOn g.rpo _ h fun _ hends _ _ ↦ hends.revise

theorem tracksOnly_outs : TracksOnly p (outs p imp g) :=
  untilStable_preserves (fun _ h ↦ h.pass) _ _ tracksOnly_empty

theorem isTracked_of_mem_commandEntries {commands : List Command}
    (hheld : ∀ v ∈ held, p.isTracked v) (h : (n, out) ∈ commandEntries p held commands) :
    ∀ v ∈ out, p.isTracked v := by
  induction commands generalizing held with
  | nil => exact absurd h List.not_mem_nil
  | cons c rest ih =>
    have hafter : ∀ v ∈ p.transferAll [c] held, p.isTracked v :=
      Program.isTracked_of_mem_transferAll hheld
    rcases List.mem_cons.mp h with heq | hrest
    · cases heq
      exact hafter
    · exact ih hafter hrest

theorem isTracked_of_mem_blockEntries (h : (n, out) ∈ blockEntries p imp g (outs p imp g) b) :
    ∀ v ∈ out, p.isTracked v := by
  unfold blockEntries at h
  split at h
  · rename_i block held hblock hheld
    have htracked := tracked_of_heldAtStart? tracksOnly_outs hheld
    rcases List.mem_cons.mp h with heq | hrest
    · cases heq
      exact htracked
    · exact isTracked_of_mem_commandEntries htracked hrest
  · exact absurd h List.not_mem_nil

end Availability

namespace Program

/-- The analysis finds tracked variables only. -/
theorem isTracked_of_mem_availability (h : (p.availability imp)[n]? = some held) :
    ∀ v ∈ held, p.isTracked v := by
  unfold availability at h
  cases hg : FlowGraph.of? imp with
  | none =>
    rw [hg, Option.elim_none, Std.ExtTreeMap.getElem?_empty] at h
    cases h
  | some g =>
    rw [hg, Option.elim_some] at h
    obtain ⟨b, -, hentry⟩ := List.mem_flatMap.mp (mem_of_getElem?_map_ofList h)
    exact Availability.isTracked_of_mem_blockEntries hentry

/-- The registry has tracked variables only on record. -/
theorem isTracked_of_mem_availableAt (h : v ∈ p.registry.availableAt n) : p.isTracked v := by
  unfold Registry.availableAt at h
  rw [Std.ExtTreeMap.getD_eq_getD_getElem?] at h
  cases hentry : p.registry.available[n]? with
  | none =>
    rw [hentry, Option.getD_none] at h
    exact absurd h Std.ExtTreeSet.not_mem_empty
  | some held =>
    rw [hentry, Option.getD_some] at h
    rcases exists_of_getElem?_foldl_union hentry with hempty | ⟨table, htable, hheld⟩
    · rw [Std.ExtTreeMap.getElem?_empty] at hempty
      cases hempty
    · obtain ⟨imp, -, rfl⟩ := List.mem_map.mp htable
      exact isTracked_of_mem_availability hheld v h

end Program

end OwnershipFlow
