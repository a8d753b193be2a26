import OwnershipFlow.Span

/-!
# Variables

A variable is global or local. A variable of linear kind owns permissions of the domain that it
names; the directional kinds `linearIn` and `linearOut` say at which end of a call a parameter owns
them. A variable may declare the closed range of layers at which it exists.

Kind, domain and scope are independent fields. Which combinations are well formed is decided when a
program is checked, and the analyses also accept programs that were never checked.
-/

set_option autoImplicit false
set_option relaxedAutoImplicit false

namespace OwnershipFlow

/-- Whether, and at which end of a call, a variable owns permissions. -/
inductive LinearKind
  | ordinary
  | linear
  | linearIn
  | linearOut
  deriving DecidableEq, Repr, Inhabited

namespace LinearKind

/-- Whether a variable of this kind owns permissions at all. -/
def isLinear : LinearKind → Bool
  | ordinary => false
  | linear | linearIn | linearOut => true

/-- Whether a parameter of this kind owns permissions at the entry of a procedure. -/
def ownedAtEntry : LinearKind → Bool
  | linear | linearIn => true
  | ordinary | linearOut => false

/-- Whether a parameter of this kind owns permissions at the exit of a procedure. -/
def ownedAtExit : LinearKind → Bool
  | linear | linearOut => true
  | ordinary | linearIn => false

/-- Whether this kind is restricted to one end of a call. -/
def isDirectional : LinearKind → Bool
  | linearIn | linearOut => true
  | ordinary | linear => false

/-- The kind as it is named in diagnostics. -/
def name : LinearKind → String
  | ordinary => "None"
  | linear => "Linear"
  | linearIn => "LinearIn"
  | linearOut => "LinearOut"

end LinearKind

/-- A closed range of layers. It is empty where the bounds cross. -/
structure LayerRange where
  lower : Nat
  upper : Nat
  deriving DecidableEq, Repr

namespace LayerRange

/-- Whether a layer lies within the bounds. -/
def contains (range : LayerRange) (layer : Nat) : Bool :=
  range.lower ≤ layer && layer ≤ range.upper

/-- Whether no layer lies within the bounds. -/
def isEmpty (range : LayerRange) : Bool :=
  range.upper < range.lower

theorem contains_iff {range : LayerRange} {layer : Nat} :
    range.contains layer = true ↔ range.lower ≤ layer ∧ layer ≤ range.upper := by
  simp [contains]

end LayerRange

/-- The declaration of a variable. -/
structure Variable where
  name : String
  isGlobal : Bool
  kind : LinearKind
  /-- The name of the domain whose permissions the variable owns. -/
  domain? : Option String
  /-- The declared layers, if any. -/
  layers? : Option LayerRange
  span : Span
  deriving DecidableEq, Repr

namespace Variable

/-- Whether the availability of the variable is tracked through an implementation: it is local and
of linear kind. -/
def isTracked (v : Variable) : Bool :=
  !v.isGlobal && v.kind.isLinear

/-- The domain whose permissions the variable owns. A variable that is not of linear kind owns none,
whatever domain it names. -/
def linearDomain? (v : Variable) : Option String :=
  if v.kind.isLinear then v.domain? else none

end Variable

end OwnershipFlow
