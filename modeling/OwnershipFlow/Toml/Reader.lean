/-!
# Readers of TOML text

A reader takes characters off the front of a text, or fails. Blanks are spaces and tabs. A line ends
with a line feed, which a carriage return may precede; a carriage return elsewhere is not allowed.
Neither are control characters other than tabs in comments and strings (`isPlain`).

Readers that repeat take a bound on the number of rounds. Every round takes at least one character,
so the length of the text is always enough (`bounded`).
-/

set_option autoImplicit false
set_option relaxedAutoImplicit false

namespace OwnershipFlow.Toml

/-- Takes characters off the front of a text, or fails. -/
abbrev Reader := StateT (List Char) Option

/-- A space or a tab. -/
def isBlank (c : Char) : Bool :=
  c = ' ' || c = '\t'

/-- A tab, or no control character: what may stand for itself in comments and strings. -/
def isPlain (c : Char) : Bool :=
  c = '\t' || (' ' ≤ c && c ≠ '\x7f')

namespace Reader

variable {α : Type}

/-- Gives a reader that repeats enough rounds for the text. -/
def bounded (reader : Nat → Reader α) : Reader α := fun text ↦
  reader (text.length + 1) text

/-- The next character, which stays in the text. -/
def peek? : Reader (Option Char) := fun text ↦
  some (text.head?, text)

/-- Takes the next character. -/
def next : Reader Char
  | [] => none
  | c :: rest => some (c, rest)

/-- Takes the next character if it is the given one, and tells whether it was. -/
def eat (c : Char) : Reader Bool
  | [] => some (false, [])
  | d :: rest => some (if d = c then (true, rest) else (false, d :: rest))

/-- Takes the given character. -/
def expect (c : Char) : Reader Unit
  | [] => none
  | d :: rest => if d = c then some ((), rest) else none

/-- Takes the characters in front that satisfy a test. -/
def takeWhile (test : Char → Bool) : Reader (List Char) := fun text ↦
  some (text.takeWhile test, text.dropWhile test)

/-- Takes blanks. -/
def skipBlanks : Reader Unit := fun text ↦
  some ((), text.dropWhile isBlank)

/-- Takes the end of a line if it is next, and tells whether it was. -/
def eatNewline : Reader Bool
  | '\n' :: rest => some (true, rest)
  | '\r' :: '\n' :: rest => some (true, rest)
  | text => some (false, text)

/-- Takes a comment if one is next: a number sign and what follows it in the line. -/
def skipComment : Reader Unit
  | '#' :: rest => some ((), rest.dropWhile isPlain)
  | text => some ((), text)

/-- Takes what may follow a statement in its line, and the end of the line or of the text. -/
def lineEnd : Reader Unit := do
  skipBlanks
  skipComment
  match ← peek? with
  | none => pure ()
  | some _ => guard (← eatNewline)

/-- Takes blanks, comments and line ends, for at most the given number of lines. -/
def skipLinesUpTo : Nat → Reader Unit
  | 0 => pure ()
  | lines + 1 => do
    skipBlanks
    if (← peek?) = some '#' then
      skipComment
      guard (← eatNewline)
      skipLinesUpTo lines
    else if ← eatNewline then
      skipLinesUpTo lines

/-- Takes blanks, comments and line ends. -/
def skipLines : Reader Unit :=
  bounded skipLinesUpTo

/-- What a reader makes of a whole text. -/
def readAll? (reader : Reader α) (text : List Char) : Option α :=
  match reader text with
  | some (a, []) => some a
  | _ => none

end Reader

end OwnershipFlow.Toml
