import OwnershipFlow.Ident

/-!
# Settings of an instrumentation pass

A pass works at one layer. A domain may be given a hole, a variable that stands for permissions held
elsewhere and takes part in the disjointness of the domain. A variable may be given a substitute
that stands for it in the predicates written.
-/

set_option autoImplicit false
set_option relaxedAutoImplicit false

namespace OwnershipFlow

/-- The layer of a pass, the hole of each domain that has one, and the substitutes of variables. -/
structure Settings where
  layer : Nat
  holes : Std.ExtTreeMap DomainId VarId
  renames : Std.ExtTreeMap VarId VarId
  deriving DecidableEq

namespace Settings

/-- The settings at a layer, without holes or substitutes. -/
def atLayer (layer : Nat) : Settings := ⟨layer, ∅, ∅⟩

/-- The variable that stands for a given one: its substitute, or else itself. -/
def rename (s : Settings) (v : VarId) : VarId :=
  s.renames.getD v v

/-- The hole of a domain. -/
def hole? (s : Settings) (d : DomainId) : Option VarId :=
  s.holes[d]?

end Settings

end OwnershipFlow
