import Mathlib.Data.List.Nodup
import OwnershipFlow.Implementation
import OwnershipFlow.Supply

/-!
# Numbers handed out by a supply

Identifiers taken one after the other have consecutive numbers (`Ident.consecutive`) until their
counter passes its greatest value, and up to there they are all different
(`Ident.nodup_consecutive`). The identifiers that a supply has handed out before that are those with
numbers below its counters (`Supply.Issued`). As long as no counter passes its greatest value,
taking further identifiers only adds to them.
-/

set_option autoImplicit false
set_option relaxedAutoImplicit false

namespace OwnershipFlow

/-- A counter advances by the numbers taken as long as it does not pass its greatest value. -/
theorem toNat_add_ofNat {next : UInt32} {n : Nat} (h : next.toNat + n < UInt32.size) :
    (next + .ofNat n).toNat = next.toNat + n := by
  rw [UInt32.toNat_add, UInt32.toNat_ofNat', Nat.add_mod_mod, Nat.mod_eq_of_lt h]

namespace Ident

variable {entity : Entity} {next : UInt32} {m n : Nat} {id : Ident entity}

theorem consecutive_add : (consecutive next (m + n) : List (Ident entity)) =
    consecutive next m ++ consecutive (next + .ofNat m) n := by
  induction m generalizing next with
  | zero => simp [consecutive]
  | succ m ih =>
    have hcounter : next + .ofNat (m + 1) = next + 1 + .ofNat m := by
      rw [Nat.add_comm, UInt32.ofNat_add, UInt32.add_assoc]
      rfl
    rw [Nat.succ_add, consecutive, ih, consecutive, List.cons_append, hcounter]

/-- Up to the greatest number, identifiers have the numbers from where the counter stands. -/
theorem consecutive_eq_map_range' (h : next.toNat + n < UInt32.size) :
    (consecutive next n : List (Ident entity)) = (List.range' next.toNat n).map (⟨·⟩) := by
  induction n generalizing next with
  | zero => rfl
  | succ n ih =>
    have hnext : (next + 1).toNat = next.toNat + 1 := toNat_add_ofNat (n := 1) (by omega)
    rw [consecutive, ih (by omega), hnext, List.range'_succ, List.map_cons]

theorem mem_consecutive (h : next.toNat + n < UInt32.size) :
    id ∈ consecutive next n ↔ next.toNat ≤ id.index ∧ id.index < next.toNat + n := by
  rw [consecutive_eq_map_range' h, List.mem_map, ← List.mem_range'_1]
  constructor
  · rintro ⟨number, hnumber, rfl⟩
    exact hnumber
  · exact fun h ↦ ⟨id.index, h, rfl⟩

theorem nodup_consecutive (h : next.toNat + n < UInt32.size) :
    (consecutive next n : List (Ident entity)).Nodup := by
  rw [consecutive_eq_map_range' h]
  exact List.Nodup.map (fun _ _ heq ↦ congrArg Ident.index heq) (List.nodup_range' ..)

end Ident

/-- An identifier that a supply has handed out has a number below the counter of its sort. -/
def Supply.Issued (s : Supply) : Node → Prop
  | .procedure id => id.index < s.procedure.toNat
  | .implementation id => id.index < s.implementation.toNat
  | .block id => id.index < s.block.toNat
  | .command id => id.index < s.command.toNat

instance (s : Supply) : DecidablePred s.Issued
  | .procedure id => inferInstanceAs (Decidable (id.index < s.procedure.toNat))
  | .implementation id => inferInstanceAs (Decidable (id.index < s.implementation.toNat))
  | .block id => inferInstanceAs (Decidable (id.index < s.block.toNat))
  | .command id => inferInstanceAs (Decidable (id.index < s.command.toNat))

/-- The command counter does not pass its greatest value while so many identifiers are taken. -/
def Supply.HasCommands (s : Supply) (count : Nat) : Prop :=
  s.command.toNat + count < UInt32.size

instance (s : Supply) (count : Nat) : Decidable (s.HasCommands count) :=
  inferInstanceAs (Decidable (_ < _))

theorem Supply.command_skipCommands {s : Supply} {count : Nat} (h : s.HasCommands count) :
    (s.skipCommands count).command.toNat = s.command.toNat + count :=
  toNat_add_ofNat h

end OwnershipFlow
