/-!
# Iteration to a fixed point

An operation is applied again and again until it changes nothing, or until a given number of rounds
has been used up. Rounds are only a bound: whatever number of them is given, a result that was
reached by standing still is a fixed point.
-/

set_option autoImplicit false
set_option relaxedAutoImplicit false

namespace OwnershipFlow

variable {α : Type}

/-- Applies `f` until it changes nothing, for at most the given number of rounds. -/
def untilStable [DecidableEq α] (f : α → α) : Nat → α → α
  | 0, a => a
  | rounds + 1, a => if f a = a then a else untilStable f rounds (f a)

/-- What holds at the start and is kept by the operation holds at the result. -/
theorem untilStable_preserves [DecidableEq α] {f : α → α} {p : α → Prop}
    (hstep : ∀ a, p a → p (f a)) (rounds : Nat) (a : α) (ha : p a) :
    p (untilStable f rounds a) := by
  induction rounds generalizing a with
  | zero => exact ha
  | succ rounds ih =>
    rw [untilStable]
    split
    · exact ha
    · exact ih (f a) (hstep a ha)

end OwnershipFlow
