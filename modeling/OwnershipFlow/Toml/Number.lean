import OwnershipFlow.Toml.Digits

/-!
# Numbers

Integers are decimal with an optional sign, or hexadecimal, octal or binary without one, and lie
within 64 bits. Floats are decimal with a fraction, an exponent or both, or one of the words `inf`
and `nan`. Digits may be grouped by underscores. Decimal numbers have no zero in front of other
digits.

A float is kept as the decimal number that is written. One that is positive and too large for a
double is refused.
-/

set_option autoImplicit false
set_option relaxedAutoImplicit false

namespace OwnershipFlow.Toml

/-- The number that a float literal denotes. -/
inductive Decimal
  /-- A significand times a power of ten. -/
  | finite (negative : Bool) (significand : Nat) (exponent : Int)
  | infinite (negative : Bool)
  | notANumber
  deriving DecidableEq, Repr

/-- Takes a sign off the front of a text, and tells whether it was a minus. -/
def takeSign : List Char → Bool × List Char
  | '+' :: rest => (false, rest)
  | '-' :: rest => (true, rest)
  | text => (false, text)

/-- Whether digits start with a zero that other digits follow. -/
def hasLeadingZero : List Nat → Bool
  | 0 :: _ :: _ => true
  | _ => false

/-- The digits of a decimal number without a leading zero. -/
def decimalDigits? (text : List Char) : Option (List Nat) :=
  (grouped? 10 text).filter (!hasLeadingZero ·)

/-- Whether a number can be held in 64 bits with a sign. -/
def fitsInteger (n : Int) : Bool :=
  -9223372036854775808 ≤ n && n ≤ 9223372036854775807

/-- The integer that a text denotes. -/
def integer? (text : List Char) : Option Int :=
  let magnitude? : Option Int := match text with
    | '0' :: 'x' :: rest => (grouped? 16 rest).map fun digits ↦ ofDigits 16 digits
    | '0' :: 'o' :: rest => (grouped? 8 rest).map fun digits ↦ ofDigits 8 digits
    | '0' :: 'b' :: rest => (grouped? 2 rest).map fun digits ↦ ofDigits 2 digits
    | _ =>
      let (negative, rest) := takeSign text
      (decimalDigits? rest).map fun digits ↦
        if negative then -(ofDigits 10 digits : Int) else ofDigits 10 digits
  magnitude?.filter fitsInteger

/-- The least number that is rounded to infinity as a double: it lies half way between the greatest
double and the next power of two. -/
def doubleLimit : Nat :=
  Nat.pow 2 1024 - Nat.pow 2 970

/-- Whether a significand times a power of ten reaches the limit of doubles. Powers beyond what the
digits of the significand can make up for are not computed. -/
def exceedsDouble (significand : Nat) (exponent : Int) : Bool :=
  match exponent with
  | .ofNat e =>
    if significand = 0 then false
    else if 400 ≤ e then true
    else doubleLimit ≤ significand * Nat.pow 10 e
  | .negSucc e =>
    let width := (toString significand).length
    if width ≤ e then false
    else doubleLimit * Nat.pow 10 (e + 1) ≤ significand

/-- Splits a text at the first character that satisfies a test. -/
def splitAtFirst (test : Char → Bool) (text : List Char) : List Char × List Char :=
  (text.takeWhile (!test ·), text.dropWhile (!test ·))

/-- The exponent that the end of a float literal denotes. -/
def exponent? : List Char → Option Int
  | [] => some 0
  | _ :: rest =>
    let (negative, digits) := takeSign rest
    (grouped? 10 digits).map fun digits ↦
      if negative then -(ofDigits 10 digits : Int) else ofDigits 10 digits

/-- The digits after the point of a float literal; there are none without a point. -/
def fractionDigits? : List Char → Option (List Nat)
  | [] => some []
  | _ :: rest => grouped? 10 rest

/-- The decimal number that a float literal without a sign denotes. -/
def unsignedFloat? (negative : Bool) (text : List Char) : Option Decimal := do
  let (mantissa, scale) := splitAtFirst (fun c ↦ c = 'e' || c = 'E') text
  let (whole, fraction) := splitAtFirst (· = '.') mantissa
  guard (!(scale.isEmpty && fraction.isEmpty))
  let whole ← decimalDigits? whole
  let fraction ← fractionDigits? fraction
  let exponent ← exponent? scale
  let significand := ofDigits 10 (whole ++ fraction)
  let exponent := exponent - fraction.length
  guard (negative || !exceedsDouble significand exponent)
  return .finite negative significand exponent

/-- The number that a float literal denotes. -/
def float? (text : List Char) : Option Decimal :=
  let (negative, rest) := takeSign text
  if rest = ['i', 'n', 'f'] then some (.infinite negative)
  else if rest = ['n', 'a', 'n'] then some .notANumber
  else unsignedFloat? negative rest

end OwnershipFlow.Toml
