import OwnershipFlow.Permission.Registry
import OwnershipFlow.Text.Quoted

/-!
# Listings of a registry

A one-line listing of a registry for inspection: the domains in order, the domain of the variable of
linear kind, and the number of points at which availability is known. The order of several variables
is not settled, so there is a listing only for programs with at most one variable of linear kind.
-/

set_option autoImplicit false
set_option relaxedAutoImplicit false

namespace OwnershipFlow

/-- The listing of a record: its name, and its fields in braces. -/
def recordListing (name : String) (fields : List (String × String)) : String :=
  name ++ " \x7b " ++ ", ".intercalate (fields.map fun (field, value) ↦ field ++ ": " ++ value) ++
    " \x7d"

namespace Registry

/-- The listing of a domain. -/
def domainListing (name : String) : String :=
  recordListing "LinearDomain" [("name", Text.quoted name)]

/-- The listing of the domain of a variable. -/
def entryListing (entry : VarId × DomainId) : String :=
  "VarId(" ++ toString entry.1.index ++ "): DomainId(" ++ toString entry.2.index ++ ")"

/-- The listing of a registry, with variables in ascending order. -/
def listing (r : Registry) : String :=
  recordListing "LinearTypeChecker"
    [("domains", "[" ++ ", ".intercalate (r.domains.map domainListing) ++ "]"),
      ("domain_of", "\x7b" ++ ", ".intercalate (r.domainOf.toList.map entryListing) ++ "\x7d"),
      ("available_points", toString r.available.size)]

end Registry

/-- The listing of the registry of a program with at most one variable of linear kind. -/
def Program.registryListing? (p : Program) : Option String :=
  if (p.vars.filter (·.kind.isLinear)).length ≤ 1 then some p.registry.listing else none

end OwnershipFlow
