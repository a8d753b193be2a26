import OwnershipFlow.Toml.Quoted
import OwnershipFlow.Toml.Value

/-!
# Documents

A document is a sequence of lines, each with at most one statement: a key with its value, or a
header. Keys with values go to the table that the last header opened, and before any header to the
outermost table.

Arrays and inline tables are nested less than eighty levels deep, and keys have less than eighty
parts. An array may extend over several lines and end with a comma; an inline table may not.
-/

set_option autoImplicit false
set_option relaxedAutoImplicit false

namespace OwnershipFlow.Toml

open Reader

/-! ### Scalars -/

/-- Whether a character can be part of a number, a date or a word. -/
def isScalarChar (c : Char) : Bool :=
  c.isAlphanum || c = '+' || c = '-' || c = '_' || c = '.' || c = ':'

/-- The value that a number, a date or a word denotes. -/
def scalarValue? (text : List Char) : Option Value :=
  if text = ['t', 'r', 'u', 'e'] then some (.boolean true)
  else if text = ['f', 'a', 'l', 's', 'e'] then some (.boolean false)
  else (integer? text).map .integer <|> (float? text).map .float <|>
    (datetime? text).map .datetime

/-- Takes the time that follows a date after a space, if a digit shows that there is one. -/
def spacedTime (text : List Char) : Reader (List Char) := do
  match date? text, ← get with
  | some (_, []), ' ' :: c :: rest =>
    if c.isDigit then
      set (c :: rest)
      return ' ' :: (← takeWhile isScalarChar)
    else return []
  | _, _ => return []

/-- Takes a number, a date or a word. -/
def scalar : Reader Value := do
  let text ← takeWhile isScalarChar
  let more ← spacedTime text
  StateT.lift (scalarValue? (text ++ more))

/-! ### Keys -/

/-- Whether a character can be part of a key without quotes. -/
def isBareChar (c : Char) : Bool :=
  c.isAlphanum || c = '-' || c = '_'

/-- Takes one part of a key. -/
def keyPart : Reader String := do
  if ← eat '"' then lineString .double
  else if ← eat '\'' then lineString .single
  else
    let text ← takeWhile isBareChar
    guard (!text.isEmpty)
    return String.ofList text

/-- Takes the parts of a key, with blanks around them and dots between them. -/
def keyParts : Nat → Reader (List String)
  | 0 => failure
  | rounds + 1 => do
    skipBlanks
    let part ← keyPart
    skipBlanks
    if ← eat '.' then return part :: (← keyParts rounds)
    else return [part]

/-- The number of parts that a key may not reach, and of levels that values may not reach. -/
def depthLimit : Nat := 80

/-- Takes a key: the path of its parts but the last, and the last. -/
def key : Reader (List String × String) := do
  let parts ← bounded keyParts
  guard (parts.length < depthLimit)
  match parts.getLast? with
  | some last => return (parts.dropLast, last)
  | none => failure

/-! ### Values -/

/-- Takes a value that is no array and no inline table. -/
def flatValue : Reader Value := do
  if ← eat '"' then return .string (← anyString .double)
  else if ← eat '\'' then return .string (← anyString .single)
  else scalar

/-- Takes the items of an array and its closing bracket. -/
def arrayItems (item : Reader Value) : Nat → Reader (List Value)
  | 0 => failure
  | rounds + 1 => do
    skipLines
    if ← eat ']' then return []
    else
      let value ← item
      skipLines
      if ← eat ',' then return value :: (← arrayItems item rounds)
      else
        expect ']'
        return [value]

/-- Takes a key, an equals sign and a value. -/
def assignment (item : Reader Value) : Reader (List String × String × Value) := do
  let (path, last) ← key
  expect '='
  skipBlanks
  return (path, last, ← item)

/-- Takes the assignments of an inline table and its closing brace, adding them to entries. -/
def inlineEntries (item : Reader Value) : Nat → Entries → Reader Entries
  | 0, _ => failure
  | rounds + 1, entries => do
    let (path, last, value) ← assignment item
    let entries ← StateT.lift (addValue path last value .inline entries)
    skipBlanks
    if ← eat ',' then inlineEntries item rounds entries
    else
      expect '\x7d'
      return entries

/-- Takes an inline table after its opening brace. -/
def inlineTable (item : Reader Value) : Reader Value := do
  skipBlanks
  if ← eat '\x7d' then return .table .inline []
  else return .table .inline (← bounded fun rounds ↦ inlineEntries item rounds [])

/-- Takes a value that holds at most the given number of levels of arrays and inline tables. -/
def value : Nat → Reader Value
  | 0 => flatValue
  | levels + 1 => do
    if ← eat '[' then return .array (← bounded (arrayItems (value levels)))
    else if ← eat '\x7b' then inlineTable (value levels)
    else flatValue

/-! ### Statements -/

/-- The entries of a document so far, and the path of the table that the last header opened. -/
structure Document where
  current : List String
  entries : Entries

namespace Document

/-- The document without statements. -/
def empty : Document := ⟨[], []⟩

/-- Takes a header after its first bracket. -/
def header (d : Document) : Reader Document := do
  let isElement ← eat '['
  let (path, last) ← key
  if isElement then expect ']'
  expect ']'
  let change := if isElement then openElement last else openTable last
  let entries ← StateT.lift (descend false (fun _ ↦ change) .header path d.entries)
  return ⟨path ++ [last], entries⟩

/-- Takes a key with its value. -/
def keyValue (d : Document) : Reader Document := do
  let (path, last, value) ← assignment (value (depthLimit - 1))
  let entries ← StateT.lift (descend false (addValue path last value) .header d.current d.entries)
  return { d with entries }

/-- Takes the statement of a line, if there is one. -/
def statement (d : Document) : Reader Document := do
  match ← peek? with
  | none | some '#' | some '\n' | some '\r' => return d
  | some '[' => do
    expect '['
    d.header
  | some _ => d.keyValue

/-- Takes all lines. -/
def lines : Nat → Document → Reader Document
  | 0, d => return d
  | rounds + 1, d => do
    skipBlanks
    if (← peek?).isNone then return d
    else
      let d ← d.statement
      lineEnd
      lines rounds d

/-- The text without a byte order mark in front. -/
def withoutMark : List Char → List Char
  | '\ufeff' :: rest => rest
  | text => text

/-- The entries of the outermost table of a document. -/
def entries? (text : String) : Option Entries :=
  (readAll? (bounded fun rounds ↦ lines rounds .empty) (withoutMark text.toList)).map
    Document.entries

end Document

end OwnershipFlow.Toml
