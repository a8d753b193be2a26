import OwnershipFlow.Ident

/-!
# Depth-first search

A search explores blocks along a path that starts at a root. Its state holds the blocks met so far,
the path from the current block back to the root, each with the targets that it has not looked at
yet, the blocks that are finished, and the retreating edges: those whose target lay on the path when
they were looked at.

One step looks at one target of the current block, or finishes the block when none is left. A target
on the path makes a retreating edge; a target met before is passed over; any other target becomes
the current block. A search whose path is empty is over, and steps change it no more
(`step_of_path_nil`).

Every step uses up a target or a block of the path, so a search in which every block met is a member
of `blocks` is over after `budget` steps.

The blocks most recently finished come first in `finished`. Read from the front, this is the reverse
postorder of the search.
-/

set_option autoImplicit false
set_option relaxedAutoImplicit false

namespace OwnershipFlow

/-- A block on the path of a search, with the targets that are still to be looked at. -/
structure Frame where
  block : BlockId
  pending : List BlockId
  deriving DecidableEq, Repr

/-- The state of a depth-first search. -/
structure Search where
  /-- The blocks met so far. -/
  visited : BlockSet
  /-- The path from the current block back to the root. -/
  path : List Frame
  /-- The blocks with nothing left to explore, most recently finished first. -/
  finished : List BlockId
  /-- The edges that led back into the path, most recent first. -/
  retreating : List (BlockId × BlockId)
  deriving DecidableEq

namespace Search

/-- The search that stands at its root with the given targets to look at. -/
def start (root : BlockId) (targets : List BlockId) : Search where
  visited := {root}
  path := [⟨root, targets⟩]
  finished := []
  retreating := []

/-- Looks at one target of the current block, or finishes the block. -/
def step (next : BlockId → List BlockId) (s : Search) : Search :=
  match s.path with
  | [] => s
  | ⟨block, []⟩ :: rest => { s with path := rest, finished := block :: s.finished }
  | ⟨block, target :: pending⟩ :: rest =>
    let path := ⟨block, pending⟩ :: rest
    if (path.map Frame.block).contains target then
      { s with path, retreating := (block, target) :: s.retreating }
    else if target ∈ s.visited then
      { s with path }
    else
      { s with visited := s.visited.insert target, path := ⟨target, next target⟩ :: path }

/-- A search that is over stays as it is. -/
theorem step_of_path_nil (next : BlockId → List BlockId) {s : Search} (h : s.path = []) :
    s.step next = s := by
  simp [step, h]

/-- Takes a number of steps. -/
def run (next : BlockId → List BlockId) (s : Search) : Nat → Search
  | 0 => s
  | steps + 1 => (s.step next).run next steps

/-- A search that is over does not change, however many steps are taken. -/
theorem run_of_path_nil (next : BlockId → List BlockId) {s : Search} (h : s.path = [])
    (steps : Nat) : s.run next steps = s := by
  induction steps with
  | zero => rfl
  | succ steps ih => rw [run, step_of_path_nil next h, ih]

/-- Steps can be taken in two goes. -/
theorem run_add (next : BlockId → List BlockId) (first second : Nat) (s : Search) :
    s.run next (first + second) = (s.run next first).run next second := by
  induction first generalizing s with
  | zero => rw [Nat.zero_add, run]
  | succ first ih => rw [Nat.succ_add, run, ih, run]

/-- A number of steps that ends a search in which only members of `blocks` are met: one for the root
and each of its targets, and one for every member and each of its targets. -/
def budget (next : BlockId → List BlockId) (blocks targets : List BlockId) : Nat :=
  1 + targets.length + blocks.length + (blocks.flatMap next).length

/-- Searches from a root with the given first targets, among the members of `blocks`. -/
def explore (next : BlockId → List BlockId) (blocks : List BlockId) (root : BlockId)
    (targets : List BlockId) : Search :=
  (start root targets).run next (budget next blocks targets)

end Search

end OwnershipFlow
