import OwnershipFlow.Text.Glyph

/-!
# Quoted text

A text in double quotes in which every character is visible. A quote and a backslash have a
backslash in front; a line feed, a carriage return, a tab and the character zero are written as
escapes; what has no glyph of its own is written by its number, in hexadecimal and in braces.
-/

set_option autoImplicit false
set_option relaxedAutoImplicit false

namespace OwnershipFlow.Text

/-- The number of a character as an escape. -/
def numbered (c : Char) : List Char :=
  ['\\', 'u', '\x7b'] ++ Nat.toDigits 16 c.toNat ++ ['\x7d']

/-- A character as it stands between quotes. -/
def quotedChar (c : Char) : List Char :=
  match c with
  | '"' => ['\\', '"']
  | '\\' => ['\\', '\\']
  | '\n' => ['\\', 'n']
  | '\r' => ['\\', 'r']
  | '\t' => ['\\', 't']
  | '\x00' => ['\\', '0']
  | c => if hasGlyph c then [c] else numbered c

/-- A text between double quotes. -/
def quoted (text : String) : String :=
  String.ofList ('"' :: text.toList.flatMap quotedChar ++ ['"'])

end OwnershipFlow.Text
