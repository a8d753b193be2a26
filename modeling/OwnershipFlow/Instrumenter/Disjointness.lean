import OwnershipFlow.Instrumenter.Scope

/-!
# Disjointness predicates

The variables in scope are divided among the domains of the registry, under their substitutes. Every
domain takes part, also one without variables in scope. For each domain there is a predicate that
the permissions of its variables, and of its hole if it has one, do not overlap; a predicate that is
the literal `true` is left out. The union of the permissions of a domain is written without its
hole.

Assumptions state such predicates as commands, one for each predicate, under fresh identifiers.
-/

set_option autoImplicit false
set_option relaxedAutoImplicit false

namespace OwnershipFlow.Instrumenter

/-- The variables of a domain among those in scope, under their substitutes. -/
def inDomain (t : Instrumenter) (scope : List VarId) (d : DomainId) : VarSet :=
  .ofList ((scope.filter (t.checked.registry.domainOf? · = some d)).map t.settings.rename)

/-- The permissions of the variables of a domain, in ascending order of variables. -/
def permissions (t : Instrumenter) (scope : List VarId) (d : DomainId) (name : String) :
    List Expr :=
  (t.inDomain scope d).toList.map (t.checked.registry.encoding.permission name)

/-- The terms that must be pairwise disjoint in a domain: the permissions in scope and the hole. -/
def terms (t : Instrumenter) (scope : List VarId) (d : DomainId) (name : String) : List Expr :=
  t.permissions scope d name ++ (t.settings.hole? d).toList.map .var

/-- The predicate of every domain over a scope, trivial ones included. -/
def predicates (t : Instrumenter) (scope : List VarId) : List Expr :=
  t.checked.registry.entries.map fun (d, name) ↦
    t.checked.registry.encoding.disjointness name (t.terms scope d name)

/-- The predicates over a scope that are not trivial, in ascending order of domains. -/
def disjointness (t : Instrumenter) (scope : List VarId) : List Expr :=
  (t.predicates scope).filter (!·.isTrue)

/-- The predicates at a point. -/
def disjointnessAt (t : Instrumenter) (point : Point) (globals : Bool) : List Expr :=
  t.disjointness (t.scope point globals)

/-- The union of the permissions held at a point, globals included, for every domain. -/
def permissionUnions (t : Instrumenter) (point : Point) : List (DomainId × Expr) :=
  let scope := t.scope point true
  t.checked.registry.entries.map fun (d, name) ↦
    (d, t.checked.registry.encoding.union name (t.permissions scope d name))

/-! ### Assumptions -/

/-- The commands that assume expressions, numbered from `next` on. -/
def assumeFrom (next : UInt32) (span : Span) (exprs : List Expr) : List Command :=
  exprs.zipWith (fun e id ↦ ⟨id, span, .assume e⟩) (Ident.consecutive next exprs.length)

/-- The commands that assume expressions under fresh identifiers, and what is left of the supply. -/
def assume (exprs : List Expr) (span : Span) (supply : Supply) : List Command × Supply :=
  (assumeFrom supply.command span exprs, supply.skipCommands exprs.length)

/-- The assumptions at a point. -/
def assumeAt (t : Instrumenter) (point : Point) (globals : Bool) (span : Span) (supply : Supply) :
    List Command × Supply :=
  assume (t.disjointnessAt point globals) span supply

/-- The parameters owned at the entry or at the exit of a procedure, as it is declared. -/
def boundaryScope (t : Instrumenter) (declared : Procedure) (entry : Bool) : List VarId :=
  if entry then t.ownedAtEntry declared.ins else t.ownedAtExit (declared.ins ++ declared.outs)

/-- The assumptions about the parameters at the entry or at the exit of a procedure. -/
def assumeAtBoundary (t : Instrumenter) (declared : Procedure) (entry : Bool) (supply : Supply) :
    List Command × Supply :=
  assume (t.disjointness (t.boundaryScope declared entry)) declared.span supply

end OwnershipFlow.Instrumenter
