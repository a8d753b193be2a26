import OwnershipFlow.Ident

/-!
# Origins of derived nodes

Passes that copy parts of a program leave nodes that stand for nodes of the checked program. The map
of origins leads each derived node directly to the node that it ultimately stands for. Recording a
link first looks up what its target stands for, and takes along the nodes that stood for the one now
derived, so that links may be recorded in any order. A link that would make a node stand for itself
is ignored.
-/

set_option autoImplicit false
set_option relaxedAutoImplicit false

namespace OwnershipFlow

/-- The node that each derived node stands for. -/
structure Origins where
  links : Std.ExtTreeMap Node Node
  deriving DecidableEq

namespace Origins

/-- The map without derived nodes. -/
def empty : Origins := ⟨∅⟩

/-- The node that a derived node stands for. -/
def get? (o : Origins) (n : Node) : Option Node :=
  o.links[n]?

/-- The node that a node stands for: itself, unless it is derived. -/
def resolve (o : Origins) (n : Node) : Node :=
  (o.get? n).getD n

/-- The number of derived nodes. -/
def size (o : Origins) : Nat :=
  o.links.size

/-- Leads a derived node to what its source stands for. -/
def insert (o : Origins) (derived source : Node) : Origins :=
  let root := o.resolve source
  if root = derived then o
  else
    let redirected := o.links.map fun _ target ↦ if target = derived then root else target
    ⟨redirected.insert derived root⟩

@[simp] theorem get?_empty (n : Node) : empty.get? n = none := by
  simp [get?, empty]

/-- A node that is not derived stands for itself. -/
theorem resolve_of_get?_eq_none {o : Origins} {n : Node} (h : o.get? n = none) :
    o.resolve n = n := by
  rw [resolve, h, Option.getD_none]

/-- A link that would make a node stand for itself is ignored. -/
theorem insert_of_resolve_eq {o : Origins} {derived source : Node}
    (h : o.resolve source = derived) : o.insert derived source = o := by
  rw [insert, if_pos h]

/-- After a link is recorded, the derived node stands for what its source stood for, and so does
every node that stood for the derived one. All other nodes stand for what they stood for before. -/
theorem get?_insert {o : Origins} {derived source : Node}
    (h : o.resolve source ≠ derived) (n : Node) :
    (o.insert derived source).get? n =
      if n = derived then some (o.resolve source)
      else (o.get? n).map fun target ↦
        if target = derived then o.resolve source else target := by
  rw [insert, if_neg h]
  by_cases hn : n = derived
  · subst hn
    simp [get?]
  · have hne : derived ≠ n := fun heq ↦ hn heq.symm
    simp [get?, Std.ExtTreeMap.getElem?_insert, hn, hne]

/-- Records links one after the other. -/
def record (o : Origins) (links : List (Node × Node)) : Origins :=
  links.foldl (fun o (derived, source) ↦ o.insert derived source) o

end Origins

end OwnershipFlow
