import OwnershipFlow.Toml.Digits

/-!
# Dates and times

A date, a time of day, or both. Where both are given, an offset from universal time may follow. A
date and its time are separated by `T`, in either case, or by a space; seconds are always given, and
may be sixty. Of a fraction of a second the first nine digits count.

The canonical text (`Datetime.text`) writes `T` and `Z` in upper case, drops zeros at the end of a
fraction, and gives no sign to an offset of zero but a plus.
-/

set_option autoImplicit false
set_option relaxedAutoImplicit false

namespace OwnershipFlow.Toml

/-- A day of the calendar. -/
structure Date where
  year : Nat
  month : Nat
  day : Nat
  deriving DecidableEq, Repr

/-- A time of day. -/
structure Time where
  hour : Nat
  minute : Nat
  second : Nat
  nanosecond : Nat
  deriving DecidableEq, Repr

/-- The distance from universal time. -/
inductive Offset
  | utc
  | ahead (minutes : Nat)
  | behind (minutes : Nat)
  deriving DecidableEq, Repr

/-- A date, a time of day, or both. -/
structure Datetime where
  date? : Option Date
  time? : Option Time
  offset? : Option Offset
  deriving DecidableEq, Repr

/-! ### Reading -/

/-- Whether a year has a leap day. -/
def isLeapYear (year : Nat) : Bool :=
  year % 4 = 0 && (year % 100 ≠ 0 || year % 400 = 0)

/-- The number of days of a month, zero if there is no such month. -/
def daysInMonth (year month : Nat) : Nat :=
  match month with
  | 2 => if isLeapYear year then 29 else 28
  | 4 | 6 | 9 | 11 => 30
  | 1 | 3 | 5 | 7 | 8 | 10 | 12 => 31
  | _ => 0

/-- Reads `YYYY-MM-DD` off the front of a text. -/
def date? : List Char → Option (Date × List Char)
  | y₁ :: y₂ :: y₃ :: y₄ :: '-' :: m₁ :: m₂ :: '-' :: d₁ :: d₂ :: rest => do
    let year ← natural? [y₁, y₂, y₃, y₄]
    let month ← natural? [m₁, m₂]
    let day ← natural? [d₁, d₂]
    guard (1 ≤ day ∧ day ≤ daysInMonth year month)
    return (⟨year, month, day⟩, rest)
  | _ => none

/-- Reads a fraction off the front of a text, in nanoseconds; without a point there is none. -/
def fraction? : List Char → Option (Nat × List Char)
  | '.' :: rest => do
    let digits := rest.takeWhile (digitIn? 10 · |>.isSome)
    guard (!digits.isEmpty)
    let nanoseconds ← natural? ((digits ++ List.replicate 9 '0').take 9)
    return (nanoseconds, rest.drop digits.length)
  | rest => some (0, rest)

/-- Reads `HH:MM` off the front of a text. -/
def hourMinute? : List Char → Option ((Nat × Nat) × List Char)
  | h₁ :: h₂ :: ':' :: m₁ :: m₂ :: rest => do
    let hour ← natural? [h₁, h₂]
    let minute ← natural? [m₁, m₂]
    guard (hour ≤ 23 ∧ minute ≤ 59)
    return ((hour, minute), rest)
  | _ => none

/-- Reads `HH:MM:SS` and a fraction off the front of a text. -/
def time? (text : List Char) : Option (Time × List Char) := do
  let ((hour, minute), rest) ← hourMinute? text
  match rest with
  | ':' :: s₁ :: s₂ :: rest =>
    let second ← natural? [s₁, s₂]
    guard (second ≤ 60)
    let (nanosecond, rest) ← fraction? rest
    return (⟨hour, minute, second, nanosecond⟩, rest)
  | _ => none

/-- Reads an offset that takes up a whole text; there need not be one. -/
def offset? : List Char → Option (Option Offset)
  | [] => some none
  | ['Z'] | ['z'] => some (some .utc)
  | sign :: rest =>
    match hourMinute? rest with
    | some ((hour, minute), []) =>
      let minutes := hour * 60 + minute
      if sign = '+' then some (some (.ahead minutes))
      else if sign = '-' then some (some (.behind minutes))
      else none
    | _ => none

/-- Whether a character separates a date from a time. -/
def isDateSeparator (c : Char) : Bool :=
  c = 'T' || c = 't' || c = ' '

/-- Reads a date with what follows it, or a time of day. -/
def datetime? (text : List Char) : Option Datetime :=
  match date? text with
  | some (date, []) => some ⟨some date, none, none⟩
  | some (date, separator :: rest) => do
    guard (isDateSeparator separator)
    let (time, rest) ← time? rest
    let offset? ← offset? rest
    return ⟨some date, some time, offset?⟩
  | none => do
    let (time, rest) ← time? text
    guard rest.isEmpty
    return ⟨none, some time, none⟩

/-! ### Writing -/

/-- A number with zeros in front, up to a width. -/
def padded (width number : Nat) : String :=
  let text := toString number
  String.ofList (List.replicate (width - text.length) '0') ++ text

/-- The canonical text of a date. -/
def Date.text (d : Date) : String :=
  padded 4 d.year ++ "-" ++ padded 2 d.month ++ "-" ++ padded 2 d.day

/-- The canonical text of a fraction of a second, empty for a full second. -/
def fractionText (nanosecond : Nat) : String :=
  if nanosecond = 0 then ""
  else
    let digits := (padded 9 nanosecond).toList.reverse.dropWhile (· = '0')
    "." ++ String.ofList digits.reverse

/-- The canonical text of a time of day. -/
def Time.text (t : Time) : String :=
  padded 2 t.hour ++ ":" ++ padded 2 t.minute ++ ":" ++ padded 2 t.second ++
    fractionText t.nanosecond

/-- The canonical text of an offset. -/
def Offset.text : Offset → String
  | utc => "Z"
  | ahead minutes => "+" ++ padded 2 (minutes / 60) ++ ":" ++ padded 2 (minutes % 60)
  | behind minutes =>
    (if minutes = 0 then "+" else "-") ++
      padded 2 (minutes / 60) ++ ":" ++ padded 2 (minutes % 60)

/-- The canonical text of a date, a time of day, or both. -/
def Datetime.text (d : Datetime) : String :=
  d.date?.elim "" Date.text ++
    (if d.date?.isSome && d.time?.isSome then "T" else "") ++
    d.time?.elim "" Time.text ++
    d.offset?.elim "" Offset.text

end OwnershipFlow.Toml
