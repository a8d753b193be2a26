import OwnershipFlow.Ident

/-!
# Supplies of fresh identifiers

A supply holds, for each sort of entity that is created on demand, the number to be handed out next.
Taking an identifier hands out that number and advances the counter by one. Counters have 32 bits:
the greatest number is followed by 0, and from there on numbers are handed out that may be in use.
-/

set_option autoImplicit false
set_option relaxedAutoImplicit false

namespace OwnershipFlow

/-- The identifiers taken one after the other while a counter advances from `next` on. -/
def Ident.consecutive {entity : Entity} (next : UInt32) : Nat → List (Ident entity)
  | 0 => []
  | count + 1 => ⟨next.toNat⟩ :: consecutive (next + 1) count

@[simp] theorem Ident.length_consecutive {entity : Entity} (next : UInt32) (count : Nat) :
    (consecutive next count : List (Ident entity)).length = count := by
  induction count generalizing next with
  | zero => rfl
  | succ count ih => rw [consecutive, List.length_cons, ih]

/-- The next number of each sort. -/
structure Supply where
  procedure : UInt32
  implementation : UInt32
  block : UInt32
  command : UInt32
  deriving DecidableEq, Repr

namespace Supply

/-- The supply from which nothing has been taken. -/
def initial : Supply := ⟨0, 0, 0, 0⟩

/-- Takes a procedure identifier. -/
def freshProcedure (s : Supply) : ProcId × Supply :=
  (⟨s.procedure.toNat⟩, { s with procedure := s.procedure + 1 })

/-- Takes an implementation identifier. -/
def freshImplementation (s : Supply) : ImplId × Supply :=
  (⟨s.implementation.toNat⟩, { s with implementation := s.implementation + 1 })

/-- Takes a block identifier. -/
def freshBlock (s : Supply) : BlockId × Supply :=
  (⟨s.block.toNat⟩, { s with block := s.block + 1 })

/-- Takes a command identifier. -/
def freshCommand (s : Supply) : CommandId × Supply :=
  (⟨s.command.toNat⟩, { s with command := s.command + 1 })

/-- Takes `count` block identifiers in a row. -/
def skipBlocks (s : Supply) (count : Nat) : Supply :=
  { s with block := s.block + .ofNat count }

/-- Takes `count` command identifiers in a row. -/
def skipCommands (s : Supply) (count : Nat) : Supply :=
  { s with command := s.command + .ofNat count }

@[simp] theorem skipCommands_zero (s : Supply) : s.skipCommands 0 = s := by
  simp [skipCommands]

@[simp] theorem skipCommands_skipCommands (s : Supply) (m n : Nat) :
    (s.skipCommands m).skipCommands n = s.skipCommands (m + n) := by
  simp [skipCommands, UInt32.add_assoc]

end Supply

end OwnershipFlow
