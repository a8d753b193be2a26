import Mathlib.Data.List.Nodup
import OwnershipFlow.Availability
import OwnershipFlow.Proofs.Collections

/-!
# Effects of runs of commands

A run of commands has an effect of the same form as a single command: some variables are lost, then
others are gained (`transferAll_eq_act`). So what is held after a run grows with what is held before
it (`mem_transferAll_mono`), and a run distributes over intersections, however many sets take part
(`mem_transferAll_of_forall`). Only tracked variables are ever gained, which bounds the size of what
can be held (`size_le_of_tracked`).
-/

set_option autoImplicit false
set_option relaxedAutoImplicit false

namespace OwnershipFlow

variable {p : Program} {commands : List Command} {c : Command} {held other : VarSet} {v : VarId}

namespace Effect

/-- One effect after another, as a single effect. -/
def andThen (e f : Effect) : Effect where
  lost := e.lost ∪ f.lost
  gained := f.act e.gained

theorem act_idle : idle.act held = held := by
  ext v
  rw [mem_act, idle]
  simp

theorem act_andThen {e f : Effect} : (e.andThen f).act held = f.act (e.act held) := by
  ext v
  rw [mem_act, mem_act, mem_act, andThen, mem_act, Std.ExtTreeSet.mem_union_iff]
  tauto

end Effect

theorem LinearKind.ownedAtEntry_iff {k : LinearKind} :
    k.ownedAtEntry = true ↔ k = .linear ∨ k = .linearIn := by
  cases k <;> simp [ownedAtEntry]

namespace Program

/-- The effect of a run of commands. -/
def effectAll (p : Program) (commands : List Command) : Effect :=
  commands.foldl (fun e c ↦ e.andThen (p.effect c.action)) .idle

/-- What a run does is lose some variables and gain others. -/
theorem transferAll_eq_act (p : Program) (commands : List Command) (held : VarSet) :
    p.transferAll commands held = (p.effectAll commands).act held := by
  suffices hfold : ∀ e : Effect, commands.foldl p.transfer (e.act held) =
      (commands.foldl (fun e c ↦ e.andThen (p.effect c.action)) e).act held by
    have h := hfold .idle
    rw [Effect.act_idle] at h
    exact h
  induction commands with
  | nil => exact fun e ↦ rfl
  | cons c rest ih =>
    intro e
    rw [List.foldl_cons, List.foldl_cons, transfer, ← Effect.act_andThen, ih]

theorem mem_transferAll : v ∈ p.transferAll commands held ↔
    (v ∈ held ∧ v ∉ (p.effectAll commands).lost) ∨ v ∈ (p.effectAll commands).gained := by
  rw [transferAll_eq_act, Effect.mem_act]

/-- A run of commands is monotone in what is held before it. -/
theorem mem_transferAll_mono (hsub : ∀ v ∈ held, v ∈ other)
    (h : v ∈ p.transferAll commands held) : v ∈ p.transferAll commands other := by
  rw [mem_transferAll] at h ⊢
  exact h.imp_left fun h ↦ ⟨hsub v h.1, h.2⟩

/-- A run of commands distributes over meets: what is held after it, whichever set of a family was
held before it, is held after it if all that the sets have in common was held before it. -/
theorem mem_transferAll_of_forall {f : VarSet → Prop} (hne : ∃ s, f s)
    (h : ∀ s, f s → v ∈ p.transferAll commands s) (hmeet : (∀ s, f s → v ∈ s) → v ∈ held) :
    v ∈ p.transferAll commands held := by
  rw [mem_transferAll]
  by_cases hgained : v ∈ (p.effectAll commands).gained
  · exact Or.inr hgained
  · have hboth : ∀ s, f s → v ∈ s ∧ v ∉ (p.effectAll commands).lost :=
      fun s hs ↦ (mem_transferAll.mp (h s hs)).resolve_right hgained
    obtain ⟨s, hs⟩ := hne
    exact Or.inl ⟨hmeet fun s hs ↦ (hboth s hs).1, (hboth s hs).2⟩

/-- Only the actions of commands matter. -/
theorem transferAll_congr {others : List Command}
    (h : commands.map Command.action = others.map Command.action) :
    p.transferAll commands held = p.transferAll others held := by
  have hactions : ∀ l : List Command, p.transferAll l held =
      (l.map Command.action).foldl (fun held action ↦ (p.effect action).act held) held := by
    intro l
    rw [List.foldl_map]
    rfl
  rw [hactions, hactions, h]

/-! ### Tracked variables -/

theorem mem_tracked {vars : List VarId} : v ∈ p.tracked vars ↔ v ∈ vars ∧ p.isTracked v := by
  rw [tracked, mem_set_ofList, List.mem_filter]

theorem isTracked_of_mem_gained {action : Action} (h : v ∈ (p.effect action).gained) :
    p.isTracked v := by
  cases action with
  | assume _ | assert _ | havoc _ => exact absurd h Std.ExtTreeSet.not_mem_empty
  | assign _ _ | call _ | parCall _ => exact (mem_tracked.mp h).2

theorem isTracked_of_mem_heldAtEntry {imp : Implementation} (h : v ∈ p.heldAtEntry imp) :
    p.isTracked v := by
  rw [heldAtEntry, mem_set_ofList, List.mem_filter, Bool.and_eq_true] at h
  exact h.2.1

/-- A run of commands keeps what is held tracked. -/
theorem isTracked_of_mem_transferAll (hheld : ∀ v ∈ held, p.isTracked v) :
    ∀ v ∈ p.transferAll commands held, p.isTracked v := by
  induction commands generalizing held with
  | nil => exact hheld
  | cons c rest ih =>
    refine ih fun v hv ↦ ?_
    rcases Effect.mem_act.mp hv with hv | hv
    · exact hheld v hv.1
    · exact isTracked_of_mem_gained hv

theorem index_lt_of_isTracked (h : p.isTracked v) : v.index < p.vars.length := by
  rw [isTracked, var?] at h
  by_contra hge
  rw [List.getElem?_eq_none (Nat.le_of_not_lt hge)] at h
  cases h

/-- There are no more variables in a set of tracked variables than the program declares. -/
theorem size_le_of_tracked (h : ∀ v ∈ held, p.isTracked v) : held.size ≤ p.vars.length := by
  have hnodup : (held.toList.map Ident.index).Nodup :=
    (nodup_toList held).map fun _ _ ↦ Ident.ext
  have hsub : held.toList.map Ident.index ⊆ List.range p.vars.length := by
    intro n hn
    obtain ⟨v, hv, rfl⟩ := List.mem_map.mp hn
    exact List.mem_range.mpr (index_lt_of_isTracked (h v (Std.ExtTreeSet.mem_toList.mp hv)))
  have hle := (hnodup.subperm hsub).length_le
  rwa [List.length_map, Std.ExtTreeSet.length_toList, List.length_range] at hle

end Program

end OwnershipFlow
