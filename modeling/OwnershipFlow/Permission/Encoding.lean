import OwnershipFlow.Expr

/-!
# Encodings of permissions

An encoding says how statements about the permissions of a domain are written as expressions: the
permission held by a variable, the union of permissions, and the statement that permissions do not
overlap. The last must be the literal `true` where fewer than two permissions are given.

The collector encoding applies functions named after the domain: `d#collect` to a variable,
`d#union` to two permissions, `d#empty` to nothing and `d#disjoint` to two permissions. A union
associates to the left, and permissions are disjoint if all pairs of them are.
-/

set_option autoImplicit false
set_option relaxedAutoImplicit false

namespace OwnershipFlow

/-- How statements about permissions are written, given the name of their domain. -/
structure Encoding where
  /-- The permission held by a variable. -/
  permission : String → VarId → Expr
  /-- The union of permissions. -/
  union : String → List Expr → Expr
  /-- The statement that permissions do not overlap. -/
  disjointness : String → List Expr → Expr

namespace Encoding

/-- Every unordered pair of positions of a list, as the members at these positions. -/
def pairs : List Expr → List (Expr × Expr)
  | [] => []
  | e :: rest => rest.map (e, ·) ++ pairs rest

/-- The union of permissions under a function of two arguments, associated to the left. -/
def unionWith (func : String) (none : Expr) : List Expr → Expr
  | [] => none
  | e :: rest => rest.foldl (fun union e ↦ .app func [union, e]) e

/-- The collector encoding. -/
def collector : Encoding where
  permission domain v := .app (domain ++ "#collect") [.var v]
  union domain := unionWith (domain ++ "#union") (.app (domain ++ "#empty") [])
  disjointness domain perms :=
    .conj ((pairs perms).map fun (a, b) ↦ .app (domain ++ "#disjoint") [a, b])

/-- The encoding in which a variable stands for its own permission, and one function of any number
of arguments states that its arguments are separate. -/
def separation : Encoding where
  permission _ v := .var v
  union domain perms := .app (domain ++ "#all") perms
  disjointness _ perms := if perms.length < 2 then .lit true else .app "separate" perms

/-- The encoding that takes disjointness to be a constant, without looking at permissions. A union
is the conjunction of its members. -/
def constant (disjoint : Bool) : Encoding where
  permission _ v := .app "own" [.var v]
  union _ perms := .conj perms
  disjointness _ _ := .lit disjoint

/-- Fewer than two permissions are disjoint in the collector encoding. -/
theorem collector_disjointness_of_length_lt_two {domain : String} {perms : List Expr}
    (h : perms.length < 2) : collector.disjointness domain perms = .lit true := by
  match perms, h with
  | [], _ => rfl
  | [_], _ => rfl

end Encoding

end OwnershipFlow
