import OwnershipFlow.Toml.Datetime
import OwnershipFlow.Toml.Number

/-!
# Values and tables

A table lists its entries under distinct keys. How it came about decides what may still be added to
it. A table is opened by a header of its own, implied by a header that leads through it, made by the
dots of a key, or written inline. An array of tables is never empty, and what is added goes to its
newest element.

A path leads from a table through its entries (`descend`), and tables that are missing are made on
the way. A path of a header may lead through any table that is not inline; a path of a dotted key
may not lead through a table with a header of its own either. At its end:

- a header opens a new table, or one that was only implied (`openTable`);
- a header of an array of tables adds an element to a new or an existing array (`openElement`);
- a key without dots adds a value to a table that was not made by dots, and a key with dots to one
  that was (`addValue`).
-/

set_option autoImplicit false
set_option relaxedAutoImplicit false

namespace OwnershipFlow.Toml

/-- How a table came about. -/
inductive TableKind
  | header
  | implied
  | dotted
  | inline
  deriving DecidableEq, Repr

/-- A value of a document. -/
inductive Value
  | string (text : String)
  | integer (number : Int)
  | float (number : Decimal)
  | boolean (value : Bool)
  | datetime (value : Datetime)
  | array (items : List Value)
  | table (kind : TableKind) (entries : List (String × Value))
  | tables (newest : List (String × Value)) (older : List (List (String × Value)))

/-- The entries of a table. -/
abbrev Entries := List (String × Value)

namespace Entries

/-- Puts a value under a key, in place of the one that is there. -/
def put (entries : Entries) (key : String) (value : Value) : Entries :=
  match entries with
  | [] => [(key, value)]
  | (k, v) :: rest => if k = key then (key, value) :: rest else (k, v) :: put rest key value

end Entries

/-- Whether a path may lead through a table, given whether it is the path of a dotted key. -/
def TableKind.admits (viaDots : Bool) : TableKind → Bool
  | header => !viaDots
  | implied => true
  | dotted => true
  | inline => false

/-- Changes the table at the end of a path, which starts at a table of the given kind. Tables that
are missing are made; they are dotted if the path is that of a dotted key. -/
def descend (viaDots : Bool) (change : TableKind → Entries → Option Entries) :
    TableKind → List String → Entries → Option Entries
  | kind, [], entries => change kind entries
  | _, key :: path, entries =>
    match entries.lookup key with
    | none =>
      let kind : TableKind := if viaDots then .dotted else .implied
      (descend viaDots change kind path []).map fun inner ↦
        entries.put key (.table kind inner)
    | some (.table kind inner) =>
      if kind.admits viaDots then
        (descend viaDots change kind path inner).map fun inner ↦ entries.put key (.table kind inner)
      else none
    | some (.tables newest older) =>
      (descend viaDots change .header path newest).map fun newest ↦
        entries.put key (.tables newest older)
    | some _ => none

/-- Opens the table under a key of a table. -/
def openTable (key : String) (entries : Entries) : Option Entries :=
  match entries.lookup key with
  | none => some (entries.put key (.table .header []))
  | some (.table .implied inner) => some (entries.put key (.table .header inner))
  | some _ => none

/-- Adds an element to the array of tables under a key of a table. -/
def openElement (key : String) (entries : Entries) : Option Entries :=
  match entries.lookup key with
  | none => some (entries.put key (.tables [] []))
  | some (.tables newest older) => some (entries.put key (.tables [] (newest :: older)))
  | some _ => none

/-- Adds a value under a key that is not taken, to a table of a given kind that a path with or
without dots has led to. -/
def addHere (viaDots : Bool) (key : String) (value : Value) (kind : TableKind) (entries : Entries) :
    Option Entries :=
  if decide (kind = .dotted) = viaDots ∧ (entries.lookup key).isNone then
    some (entries.put key value)
  else none

/-- Adds a value under a key that may have dots. The key is given as the path of all its parts but
the last, and the last part. -/
def addValue (path : List String) (key : String) (value : Value) (kind : TableKind)
    (entries : Entries) : Option Entries :=
  descend true (addHere (!path.isEmpty) key value) kind path entries

end OwnershipFlow.Toml
