/-!
# Digits

The values of digits in a base, and grouped digits: digits between which single underscores may
stand, one at a time and never at an end.
-/

set_option autoImplicit false
set_option relaxedAutoImplicit false

namespace OwnershipFlow.Toml

/-- The value of a digit in bases up to sixteen; letters of either case are digits from ten on. -/
def digitValue? (c : Char) : Option Nat :=
  if '0' ≤ c ∧ c ≤ '9' then some (c.toNat - '0'.toNat)
  else if 'a' ≤ c ∧ c ≤ 'f' then some (c.toNat - 'a'.toNat + 10)
  else if 'A' ≤ c ∧ c ≤ 'F' then some (c.toNat - 'A'.toNat + 10)
  else none

/-- The value of a digit of a base. -/
def digitIn? (base : Nat) (c : Char) : Option Nat :=
  (digitValue? c).filter (· < base)

/-- The values of digits of a base, all of which must be digits. -/
def digits? (base : Nat) (text : List Char) : Option (List Nat) :=
  text.mapM (digitIn? base)

/-- The digits of a text without the underscores that separate them, if there is at least one digit
and every underscore stands between two digits. -/
def grouped? (base : Nat) : List Char → Option (List Nat)
  | [] => none
  | [c] => (digitIn? base c).map ([·])
  | c :: '_' :: rest => (digitIn? base c).bind fun d ↦ (grouped? base rest).map (d :: ·)
  | c :: rest => (digitIn? base c).bind fun d ↦ (grouped? base rest).map (d :: ·)

/-- The number that digits denote, the most significant first. -/
def ofDigits (base : Nat) (digits : List Nat) : Nat :=
  digits.foldl (fun value d ↦ value * base + d) 0

/-- The number that a text of decimal digits denotes. -/
def natural? (text : List Char) : Option Nat :=
  (digits? 10 text).map (ofDigits 10)

end OwnershipFlow.Toml
