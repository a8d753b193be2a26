import OwnershipFlow.Fixpoint
import OwnershipFlow.Ident

/-!
# Immediate dominators

A block dominates another if every way from the entry to the other leads through it. Immediate
dominators are found by iteration over a reverse postorder of the blocks that starts with the entry.
Throughout, every block but the entry that has been assigned a parent has one that stands earlier in
that order, so the parents form a tree under the entry.

The nearest common ancestor of two blocks is found by climbing: whichever of the two stands later in
the order moves to its parent, until both are the same block (`Meeting.met`). A climb that cannot go
on is reported as such (`Meeting.stuck`), with the block at which the other finger stood.

A pass gives every block the nearest common ancestor of those of its predecessors that have a parent
already. Passes are repeated until one changes nothing. A pointer only ever moves to an earlier
block, so with `n` blocks there are at most `n * n` passes with a change.
-/

set_option autoImplicit false
set_option relaxedAutoImplicit false

namespace OwnershipFlow

/-- How a climb towards a common ancestor ends. -/
inductive Meeting
  | met (block : BlockId)
  | stuck (block : BlockId)
  deriving DecidableEq, Repr

namespace Meeting

/-- The block at which a climb ends. -/
def block : Meeting → BlockId
  | met block => block
  | stuck block => block

end Meeting

namespace Dominators

/-- The parent of each block that has one so far. The entry is its own parent. -/
abbrev Parents := Std.ExtTreeMap BlockId BlockId

/-- Moves whichever of two blocks has the higher rank to its parent, until they meet. A block
without a parent, or that is its own, cannot move. -/
def climb (rank : BlockId → Nat) (parents : Parents) : Nat → BlockId → BlockId → Meeting
  | 0, a, b => if a = b then .met a else .stuck a
  | fuel + 1, a, b =>
    if a = b then .met a
    else if rank b < rank a then
      match parents[a]? with
      | none => .stuck b
      | some parent => if parent = a then .stuck b else climb rank parents fuel parent b
    else if rank a < rank b then
      match parents[b]? with
      | none => .stuck a
      | some parent => if parent = b then .stuck a else climb rank parents fuel a parent
    else .stuck a

/-- A block meets itself at once. -/
theorem climb_self (rank : BlockId → Nat) (parents : Parents) (fuel : Nat) (b : BlockId) :
    climb rank parents fuel b b = .met b := by
  cases fuel <;> simp [climb]

/-- The nearest common ancestor of two blocks. Every move lowers a rank, which bounds the moves. -/
def meet (rank : BlockId → Nat) (parents : Parents) (a b : BlockId) : Meeting :=
  climb rank parents (rank a + rank b) a b

/-- The nearest common ancestor of those of the given blocks that have a parent. -/
def common? (rank : BlockId → Nat) (parents : Parents) (blocks : List BlockId) : Option BlockId :=
  blocks.foldl
    (fun best b ↦
      if b ∈ parents then
        some (best.elim b fun current ↦ (meet rank parents b current).block)
      else best)
    none

/-- Gives a block the nearest common ancestor of its predecessors, where there is one. The entry
keeps its place. -/
def revise (rank : BlockId → Nat) (prior : BlockId → List BlockId) (entry : BlockId)
    (parents : Parents) (b : BlockId) : Parents :=
  if b = entry then parents
  else (common? rank parents (prior b)).elim parents (parents.insert b)

/-- Revises every block of the order in turn. -/
def pass (order : List BlockId) (prior : BlockId → List BlockId) (entry : BlockId)
    (parents : Parents) : Parents :=
  order.foldl (revise order.idxOf prior entry) parents

/-- The immediate dominator of every block of the order but the entry. -/
def immediate (order : List BlockId) (prior : BlockId → List BlockId) (entry : BlockId) :
    Std.ExtTreeMap BlockId BlockId :=
  (untilStable (pass order prior entry) (order.length * order.length + 1)
    (Std.ExtTreeMap.empty.insert entry entry)).erase entry

/-- The blocks met on the way up from a block, nearest first, without the block itself. -/
def chain (idom : Std.ExtTreeMap BlockId BlockId) : Nat → BlockId → List BlockId
  | 0, _ => []
  | fuel + 1, b => idom[b]?.elim [] fun parent ↦ parent :: chain idom fuel parent

end Dominators

end OwnershipFlow
