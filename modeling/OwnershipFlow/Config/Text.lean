import OwnershipFlow.Config
import OwnershipFlow.Toml.Document

/-!
# The text of a configuration

A configuration is written as a TOML document. The layer is an integer of 32 bits and must be given.
Holes and substitutes are tables of strings and may be left out. Other entries are ignored.

A date in place of a table counts as a table of one entry, with the canonical text of the date under
a reserved key.
-/

set_option autoImplicit false
set_option relaxedAutoImplicit false

namespace OwnershipFlow.Config

open Toml

/-- The key under which a date stands when it is taken for a table. -/
def dateKey : String := "$__toml_private_datetime"

/-- The layer that a value denotes. -/
def layer? : Value → Option Nat
  | .integer number => if 0 ≤ number ∧ number ≤ 4294967295 then some number.toNat else none
  | _ => none

/-- An entry whose value is a string. -/
def stringEntry? : String × Value → Option (String × String)
  | (key, .string text) => some (key, text)
  | _ => none

/-- The names that a table of strings holds. -/
def names? : Value → Option (Std.ExtTreeMap String String)
  | .table _ entries => (entries.mapM stringEntry?).map (Std.ExtTreeMap.ofList ·)
  | .datetime d => some (.ofList [(dateKey, d.text)])
  | _ => none

/-- The names under a key that may be missing. -/
def namesUnder? (key : String) (entries : Entries) : Option (Std.ExtTreeMap String String) :=
  (entries.lookup key).elim (some ∅) names?

/-- The configuration that the entries of a document denote. -/
def ofEntries? (entries : Entries) : Option Config := do
  let layer ← (entries.lookup "layer").bind layer?
  let holes ← namesUnder? "holes" entries
  let renames ← namesUnder? "renames" entries
  return { layer, holes, renames }

/-- The configuration that a text denotes, if it is one. -/
def ofText? (text : String) : Option Config :=
  (Document.entries? text).bind ofEntries?

end OwnershipFlow.Config
