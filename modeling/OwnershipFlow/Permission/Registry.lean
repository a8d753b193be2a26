import OwnershipFlow.Availability
import OwnershipFlow.Permission.Encoding

/-!
# The registry of ownership domains

The registry of a program numbers its domains and records which variables are available where. The
domains are the names that variables of linear kind carry, in ascending order, and a domain's
identifier is its position in that order. Every implementation contributes its table of available
variables. Where tables overlap, the implementation with the greatest identifier counts.

A domain identifier is foreign to the registry if it is not a position of the list of domains; what
is asked about a foreign domain has no answer.
-/

set_option autoImplicit false
set_option relaxedAutoImplicit false

namespace OwnershipFlow

/-- The domains of a program, the domain of every variable of linear kind, and the variables that
are available at each point, together with the encoding of permissions. -/
structure Registry where
  /-- The names of the domains, ascending. -/
  domains : List String
  domainOf : Std.ExtTreeMap VarId DomainId
  available : Availability.Table
  encoding : Encoding

namespace Program

/-- The names of the domains of a program, ascending and without repetitions. -/
def domainNames (p : Program) : List String :=
  (Std.ExtTreeSet.ofList (p.vars.filterMap Variable.linearDomain?)).toList

/-- The number of every variable's domain, by position among the names. -/
def domainNumbers (p : Program) (names : List String) : List (VarId × DomainId) :=
  p.declarations.filterMap fun (id, v) ↦
    (v.linearDomain?.bind names.idxOf?).map fun position ↦ (id, ⟨position⟩)

/-- The variables available at the points of all implementations. Tables are merged in ascending
order of implementations, and later ones count where they overlap. -/
def allAvailable (p : Program) : Availability.Table :=
  (p.implementations.values.map p.availability).foldl (· ∪ ·) ∅

/-- The registry of a program under the collector encoding. -/
def registry (p : Program) : Registry where
  domains := p.domainNames
  domainOf := .ofList (p.domainNumbers p.domainNames)
  available := p.allAvailable
  encoding := .collector

end Program

namespace Registry

/-- Replaces the encoding. -/
def withEncoding (r : Registry) (encoding : Encoding) : Registry :=
  { r with encoding }

/-- The name of a domain. -/
def domain? (r : Registry) (d : DomainId) : Option String :=
  r.domains[d.index]?

/-- The domain of a given name. -/
def domainByName? (r : Registry) (name : String) : Option DomainId :=
  (r.domains.idxOf? name).map (⟨·⟩)

/-- The domain of a variable, if it is of linear kind. -/
def domainOf? (r : Registry) (v : VarId) : Option DomainId :=
  r.domainOf[v]?

/-- The domains with their names, in ascending order. -/
def entries (r : Registry) : List (DomainId × String) :=
  r.domains.zipIdx.map fun (name, position) ↦ (⟨position⟩, name)

/-- The variables available at a point; none at a point that no analysis has reached. -/
def availableAt (r : Registry) (n : Node) : VarSet :=
  r.available.getD n ∅

/-- The points of a program at which something is available, in order, with what is. -/
def availableAmong (r : Registry) (p : Program) : List (Node × VarSet) :=
  ((Std.ExtTreeSet.ofList p.nodes).toList.map fun n ↦ (n, r.availableAt n)).filter
    fun (_, held) ↦ !held.isEmpty

/-- The permissions of variables in a domain. -/
def permissions? (r : Registry) (d : DomainId) (vars : List VarId) : Option (List Expr) :=
  (r.domain? d).map fun name ↦ vars.map (r.encoding.permission name)

/-- The union of permissions of a domain. -/
def union? (r : Registry) (d : DomainId) (perms : List Expr) : Option Expr :=
  (r.domain? d).map fun name ↦ r.encoding.union name perms

/-- The statement that permissions of a domain do not overlap. -/
def disjointness? (r : Registry) (d : DomainId) (perms : List Expr) : Option Expr :=
  (r.domain? d).map fun name ↦ r.encoding.disjointness name perms

end Registry

end OwnershipFlow
