import Std.Data.ExtTreeMap
import Std.Data.ExtTreeSet

/-!
# Identifiers

Every entity of a program is named by a number, and the numbers of different sorts of entity are
kept apart by their type: `Ident .block` is not `Ident .command`. A number is unbounded, though none
of more than 32 bits is ever handed out. Within one sort, identifiers are ordered by number, and the
order is total and lawful (`compare_eq`), so finite sets and finite maps of identifiers have exactly
one representation each: two `VarSet`s with the same members are equal.

A `Node` names a point at which facts about ownership are recorded: a procedure, an implementation,
a block or a command. Nodes are ordered by sort in that order, then by number.
-/

set_option autoImplicit false
set_option relaxedAutoImplicit false

namespace OwnershipFlow

/-- The sorts of entity that carry an identifier. -/
inductive Entity
  | var
  | procedure
  | implementation
  | block
  | command
  | domain
  deriving DecidableEq, Repr

/-- The number of an entity of one sort. -/
@[ext]
structure Ident (entity : Entity) where
  index : Nat
  deriving DecidableEq, Repr

namespace Ident

variable {entity : Entity}

/-- Comparing identifiers decides whether they are equal, and so whether a list has one. -/
instance : LawfulBEq (Ident entity) := inferInstance

/-- Identifiers of one sort are ordered by number. -/
instance : Ord (Ident entity) := ⟨compareOn index⟩

theorem compare_eq (a b : Ident entity) : compare a b = compare a.index b.index := rfl

instance : Std.TransOrd (Ident entity) := inferInstanceAs (Std.TransCmp (compareOn index))

instance : Std.LawfulEqOrd (Ident entity) where
  eq_of_compare {a b} h := by
    rw [compare_eq] at h
    exact Ident.ext (Std.LawfulEqOrd.eq_of_compare h)

end Ident

abbrev VarId := Ident .var
abbrev ProcId := Ident .procedure
abbrev ImplId := Ident .implementation
abbrev BlockId := Ident .block
abbrev CommandId := Ident .command
abbrev DomainId := Ident .domain

/-- A finite set of variables; its members are listed in ascending order. -/
abbrev VarSet := Std.ExtTreeSet VarId

/-- A finite set of blocks; its members are listed in ascending order. -/
abbrev BlockSet := Std.ExtTreeSet BlockId

/-- A point of a program at which ownership facts are recorded. -/
inductive Node
  | procedure (id : ProcId)
  | implementation (id : ImplId)
  | block (id : BlockId)
  | command (id : CommandId)
  deriving DecidableEq, Repr

namespace Node

/-- The sort of a node, as a number. -/
def rank : Node → Nat
  | procedure _ => 0
  | implementation _ => 1
  | block _ => 2
  | command _ => 3

/-- The number that a node carries. -/
def index : Node → Nat
  | procedure id => id.index
  | implementation id => id.index
  | block id => id.index
  | command id => id.index

/-- Nodes are ordered by sort, then by number. -/
instance : Ord Node := ⟨compareLex (compareOn rank) (compareOn index)⟩

theorem compare_eq (a b : Node) :
    compare a b = (compare a.rank b.rank).then (compare a.index b.index) := rfl

/-- The sort and the number determine a node. -/
theorem ext_rank_index {a b : Node} (hrank : a.rank = b.rank) (hindex : a.index = b.index) :
    a = b := by
  cases a <;> cases b <;> simp_all [rank, index, Ident.ext_iff]

instance : Std.TransOrd Node :=
  inferInstanceAs (Std.TransCmp (compareLex (compareOn rank) (compareOn index)))

instance : Std.LawfulEqOrd Node where
  eq_of_compare {a b} h := by
    rw [compare_eq, Ordering.then_eq_eq] at h
    exact ext_rank_index (Std.LawfulEqOrd.eq_of_compare h.1) (Std.LawfulEqOrd.eq_of_compare h.2)

end Node

end OwnershipFlow
