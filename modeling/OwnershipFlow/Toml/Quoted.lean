import OwnershipFlow.Toml.Digits
import OwnershipFlow.Toml.Reader

/-!
# Quoted strings

A string stands between double quotes, with escapes, or between single quotes, without. It fills one
line unless its quotes are tripled. In a string between tripled quotes the line end right after the
opening quotes does not count, other line ends count as line feeds, and up to two quotes in a row
stand for themselves, also just before the closing ones. Where escapes are allowed, a backslash at
the end of such a line takes away all blanks and line ends that follow.
-/

set_option autoImplicit false
set_option relaxedAutoImplicit false

namespace OwnershipFlow.Toml

open Reader

/-- The character with the given number, unless the number is a surrogate or too large. -/
def scalar? (number : Nat) : Option Char :=
  if number.isValidChar then some (Char.ofNat number) else none

/-- Takes the given number of hexadecimal digits, and gives the character they denote. -/
def numberedChar (width : Nat) : Reader Char := fun text ↦ do
  guard (width ≤ text.length)
  let digits ← digits? 16 (text.take width)
  return (← scalar? (ofDigits 16 digits), text.drop width)

/-- Takes what follows the backslash of an escape, and gives the character that it stands for. -/
def escaped : Reader Char := do
  match ← next with
  | 'b' => return '\x08'
  | 't' => return '\t'
  | 'n' => return '\n'
  | 'f' => return '\x0c'
  | 'r' => return '\r'
  | '"' => return '"'
  | '\\' => return '\\'
  | 'u' => numberedChar 4
  | 'U' => numberedChar 8
  | _ => failure

/-- The text after blanks and line ends. -/
def dropSpace : List Char → List Char
  | ' ' :: rest => dropSpace rest
  | '\t' :: rest => dropSpace rest
  | '\n' :: rest => dropSpace rest
  | '\r' :: '\n' :: rest => dropSpace rest
  | text => text

/-- Whether only blanks stand before the end of the line. -/
def atLineEnd (text : List Char) : Bool :=
  match text.dropWhile isBlank with
  | '\n' :: _ => true
  | '\r' :: '\n' :: _ => true
  | _ => false

/-- The kinds of quote: single quotes admit no escapes. -/
inductive Quote
  | single
  | double
  deriving DecidableEq, Repr

namespace Quote

/-- The character of a quote. -/
def char : Quote → Char
  | single => '\''
  | double => '"'

end Quote

/-- Takes the rest of a string of one line, the closing quote included. -/
def lineBody (quote : Quote) : Nat → Reader (List Char)
  | 0 => failure
  | rounds + 1 => do
    let c ← next
    if c = quote.char then return []
    else if c = '\\' ∧ quote = .double then
      let c ← escaped
      return c :: (← lineBody quote rounds)
    else
      guard (isPlain c)
      return c :: (← lineBody quote rounds)

/-- Takes the rest of a string between tripled quotes, the closing quotes included. -/
def linesBody (quote : Quote) : Nat → Reader (List Char)
  | 0 => failure
  | rounds + 1 => do
    let c ← next
    if c = quote.char then
      let more ← takeWhile (· = quote.char)
      if more.length < 2 then return c :: more ++ (← linesBody quote rounds)
      else
        guard (more.length ≤ 4)
        return more.drop 2
    else if c = '\\' ∧ quote = .double then
      if atLineEnd (← get) then
        modify dropSpace
        linesBody quote rounds
      else
        let c ← escaped
        return c :: (← linesBody quote rounds)
    else if c = '\r' then
      expect '\n'
      return '\n' :: (← linesBody quote rounds)
    else
      guard (c = '\n' || isPlain c)
      return c :: (← linesBody quote rounds)

/-- Takes a string of one line after its opening quote. -/
def lineString (quote : Quote) : Reader String :=
  return String.ofList (← bounded (lineBody quote))

/-- Takes a string between tripled quotes after the opening ones. -/
def linesString (quote : Quote) : Reader String := do
  let _ ← eatNewline
  return String.ofList (← bounded (linesBody quote))

/-- Takes a string after its first quote. Two more quotes make it one between tripled quotes; a
single one more closes it. -/
def anyString (quote : Quote) : Reader String := do
  match ← get with
  | a :: b :: rest =>
    if a = quote.char ∧ b = quote.char then
      set rest
      linesString quote
    else lineString quote
  | _ => lineString quote

end OwnershipFlow.Toml
