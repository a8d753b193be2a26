import OwnershipFlow.Proofs.FlowGraph
import OwnershipFlow.Proofs.Reachability

/-!
# Traversals with cursors

The search behind a flow graph does two things at once. Taken apart, they are two traversals, each
with a stack of cursors that count the targets looked at: one lists the blocks as they are finished
(`Traversal.Listing`), the other keeps the blocks on its stack as a set and marks the edges that
lead back into it (`Traversal.Marking`). Both follow the search step by step
(`Listing.Follows.stepped`, `Marking.Follows.stepped`), because everything on the path of the search
has been met, and a block leaves the path when it is finished. So each of them ends with what the
search finds.

How often an edge is marked is settled when its target is looked at for the first time. If the
target is on the path by then, it stays there while the current block does, and the edge is marked
for every occurrence of the target (`Search.Tallied`). If not, the current block precedes the target
from then on, and the edge is never marked.
-/

set_option autoImplicit false
set_option relaxedAutoImplicit false

namespace OwnershipFlow

variable {next : BlockId → List BlockId} {root block target b u v : BlockId} {s s' : Search}
  {pending : List BlockId} {rest : List Frame}

/-! ### How often an edge is recorded -/

namespace Search

/-- An edge that retreats has been recorded as often as its target has been looked at. -/
structure Tallied (next : BlockId → List BlockId) (s : Search) : Prop where
  met : ∀ u v, (u, v) ∈ s.retreating → u ∈ s.visited
  onPath : ∀ frame ∈ s.path, ∀ v, (frame.block, v) ∈ s.retreating →
    s.retreating.count (frame.block, v) + frame.pending.count v = (next frame.block).count v
  finished : ∀ u ∈ s.finished, ∀ v, (u, v) ∈ s.retreating →
    s.retreating.count (u, v) = (next u).count v

theorem tallied_start (next : BlockId → List BlockId) (root : BlockId) (targets : List BlockId) :
    Tallied next (start root targets) where
  met _ _ h := absurd h List.not_mem_nil
  onPath _ _ _ h := absurd h List.not_mem_nil
  finished _ _ _ h := absurd h List.not_mem_nil

namespace Tallied

/-- Looking at a target whose edge does not retreat leaves the tally as it is. -/
theorem skip (h : Tallied next s) (hpath : s.path = ⟨block, target :: pending⟩ :: rest)
    (hnot : (block, target) ∉ s.retreating) : ∀ frame ∈ (⟨block, pending⟩ : Frame) :: rest,
      ∀ v, (frame.block, v) ∈ s.retreating →
        s.retreating.count (frame.block, v) + frame.pending.count v =
          (next frame.block).count v := by
  intro frame hframe v hr
  rcases List.mem_cons.mp hframe with rfl | hframe
  · have hcount := h.onPath ⟨block, target :: pending⟩ (hpath ▸ List.mem_cons_self) v hr
    have hne : target ≠ v := by
      rintro rfl
      exact hnot hr
    rwa [List.count_cons_of_ne hne] at hcount
  · exact h.onPath frame (hpath ▸ List.mem_cons_of_mem _ hframe) v hr

/-- A target on the path is recorded once more. If its edge has not been recorded before, then it
has not been looked at before, since the current block would precede it otherwise. -/
theorem retreat (h : Tallied next s) (hs : Explored next root s)
    (hpath : s.path = ⟨block, target :: pending⟩ :: rest)
    (hbefore : ¬ Precedes s.order block target) :
    Tallied next { s with
      path := ⟨block, pending⟩ :: rest, retreating := (block, target) :: s.retreating } := by
  have hcurrent : (⟨block, target :: pending⟩ : Frame) ∈ s.path := hpath ▸ List.mem_cons_self
  obtain ⟨hrest, hfinished⟩ := hs.current_fresh hpath
  have hother : ∀ u v, (block, target) ≠ (u, v) → (u, v) ∈ (block, target) :: s.retreating →
      (u, v) ∈ s.retreating ∧
        ((block, target) :: s.retreating).count (u, v) = s.retreating.count (u, v) :=
    fun u v hne hr ↦ ⟨(List.mem_cons.mp hr).resolve_left hne.symm, List.count_cons_of_ne hne⟩
  have htarget : s.retreating.count (block, target) + (pending.count target + 1) =
      (next block).count target := by
    by_cases hr : (block, target) ∈ s.retreating
    · rw [← h.onPath _ hcurrent target hr, List.count_cons_self]
    · obtain ⟨looked, hnext, hlooked⟩ := hs.looked _ hcurrent
      have hnew : target ∉ looked := fun hin ↦ (hlooked target hin).elim hr hbefore
      rw [List.count_eq_zero_of_not_mem hr, hnext, List.count_append,
        List.count_eq_zero_of_not_mem hnew, List.count_cons_self]
  refine ⟨fun u v hr ↦ ?_, fun frame hframe v hr ↦ ?_, fun u hu v hr ↦ ?_⟩
  · rcases List.mem_cons.mp hr with heq | hr
    · obtain ⟨rfl, -⟩ := Prod.mk.inj heq
      exact hs.mem_visited_of_mem_path (List.mem_map_of_mem hcurrent)
    · exact h.met u v hr
  · rcases List.mem_cons.mp hframe with rfl | hframe
    · by_cases hv : target = v
      · subst hv
        show ((block, target) :: s.retreating).count (block, target) + pending.count target = _
        rw [List.count_cons_self, ← htarget]
        omega
      · obtain ⟨hr, hcount⟩ := hother block v (fun heq ↦ hv (Prod.mk.inj heq).2) hr
        have hsame := h.onPath _ hcurrent v hr
        rw [List.count_cons_of_ne hv] at hsame
        rw [hcount, hsame]
    · obtain ⟨hr, hcount⟩ := hother frame.block v
        (fun heq ↦ hrest ((Prod.mk.inj heq).1 ▸ List.mem_map_of_mem hframe)) hr
      rw [hcount]
      exact h.onPath frame (hpath ▸ List.mem_cons_of_mem _ hframe) v hr
  · obtain ⟨hr, hcount⟩ := hother u v (fun heq ↦ hfinished ((Prod.mk.inj heq).1 ▸ hu)) hr
    rw [hcount]
    exact h.finished u hu v hr

/-- Every step of a search keeps the tally. -/
theorem stepped (h : Tallied next s) (hs : Explored next root s) (hstep : Stepped next s s') :
    Tallied next s' := by
  have hs' := hs.stepped hstep
  cases hstep with
  | stay _ => exact h
  | @finish block rest hpath =>
    refine ⟨h.met, fun frame hframe ↦ h.onPath frame (hpath ▸ List.mem_cons_of_mem _ hframe),
      fun u hu v hr ↦ ?_⟩
    rcases List.mem_cons.mp hu with rfl | hu
    · exact h.onPath ⟨u, []⟩ (hpath ▸ List.mem_cons_self) v hr
    · exact h.finished u hu v hr
  | @retreat block target pending rest hpath hon =>
    refine h.retreat hs hpath fun hp ↦ hs'.not_precedes List.mem_cons_self ?_
    rw [order_of_path hpath] at hp
    rw [order_of_path rfl]
    exact hp
  | @pass block target pending rest hpath hoff hmet =>
    refine ⟨h.met, h.skip hpath fun hr ↦ hs.not_precedes hr ?_, h.finished⟩
    rcases List.mem_append.mp ((hs.mem_visited target).mp hmet) with hin | hin
    · exact absurd (List.mem_reverse.mp hin) hoff
    · exact precedes_append (by simp [hpath]) hin
  | @advance block target pending rest hpath hnew =>
    have hnone : ∀ v, (target, v) ∉ s.retreating := fun v hr ↦ hnew (h.met target v hr)
    refine ⟨fun u v hr ↦ mem_set_insert.mpr (.inr (h.met u v hr)), fun frame hframe v hr ↦ ?_,
      h.finished⟩
    rcases List.mem_cons.mp hframe with rfl | hframe
    · exact absurd hr (hnone v)
    · refine h.skip hpath (fun hr ↦ hs'.not_precedes hr ?_) frame hframe v hr
      rw [order_of_path rfl, List.append_assoc]
      exact precedes_append (by simp) List.mem_cons_self

theorem run (h : Tallied next s) (hs : Explored next root s) (steps : Nat) :
    Tallied next (s.run next steps) := by
  induction steps generalizing s with
  | zero => exact h
  | succ steps ih => exact ih (h.stepped hs (stepped_step next s)) hs.step

end Tallied

/-- When a search is over, an edge has been recorded once for every occurrence of its target if the
target does not come after the source, and not at all if it does. -/
theorem count_retreating (hs : Explored next root s) (h : Tallied next s) (hover : s.path = [])
    (hu : u ∈ s.finished) : s.retreating.count (u, v) =
      if s.finished.idxOf v ≤ s.finished.idxOf u then (next u).count v else 0 := by
  have hiff := hs.mem_retreating_iff (u := u) (v := v) hover
  by_cases hr : (u, v) ∈ s.retreating
  · rw [if_pos (hiff.mp hr).2.2, h.finished u hu v hr]
  · rw [List.count_eq_zero_of_not_mem hr]
    split_ifs with hle
    · refine (List.count_eq_zero_of_not_mem fun hedge ↦ hr ?_).symm
      exact hiff.mpr ⟨(hs.mem_finished_iff hover).mp hu, hedge, hle⟩
    · rfl

end Search

/-! ### Traversals -/

namespace Traversal

/-- A block on the stack of a traversal, with the number of its targets that have been looked at. -/
structure Cursor where
  block : BlockId
  looked : Nat

/-- The targets that are still to be looked at. -/
def Cursor.frame (next : BlockId → List BlockId) (c : Cursor) : Frame :=
  ⟨c.block, (next c.block).drop c.looked⟩

/-- The cursor of the current block tells its next target. -/
theorem exists_cursor {stack : List Cursor}
    (h : stack.map (Cursor.frame next) = ⟨block, pending⟩ :: rest) :
    ∃ looked below, stack = ⟨block, looked⟩ :: below ∧ (next block)[looked]? = pending.head? ∧
      below.map (Cursor.frame next) = rest ∧
      (⟨block, looked + 1⟩ :: below).map (Cursor.frame next) = ⟨block, pending.tail⟩ :: rest := by
  obtain ⟨⟨block', looked⟩, below, rfl, hframe, hbelow⟩ := List.map_eq_cons_iff.mp h
  obtain ⟨rfl, rfl⟩ := Frame.mk.inj hframe
  refine ⟨looked, below, rfl, List.head?_drop.symm, hbelow, ?_⟩
  rw [List.map_cons, hbelow, Cursor.frame, List.tail_drop]

/-- What follows a search for one step follows it all the way. -/
theorem follows_run {τ : Type} {f : τ → τ} {r : Search → τ → Prop}
    (hstep : ∀ s t, Search.Explored next root s → r s t → r (s.step next) (f t)) {t : τ}
    (hs : Search.Explored next root s) (h : r s t) (steps : Nat) :
    r (s.run next steps) (f^[steps] t) := by
  induction steps generalizing s t with
  | zero => exact h
  | succ steps ih =>
    rw [Function.iterate_succ_apply]
    exact ih hs.step (hstep s t hs h)

/-- The traversal that lists blocks as they are finished. -/
structure Listing where
  visited : BlockSet
  stack : List Cursor
  postOrder : List BlockId

namespace Listing

def start (root : BlockId) : Listing where
  visited := {root}
  stack := [⟨root, 0⟩]
  postOrder := []

/-- Looks at one target of the current block, or lists the block. -/
def step (next : BlockId → List BlockId) (l : Listing) : Listing :=
  match l.stack with
  | [] => l
  | ⟨block, looked⟩ :: below =>
    match (next block)[looked]? with
    | none => { l with stack := below, postOrder := l.postOrder ++ [block] }
    | some target =>
      let stack := ⟨block, looked + 1⟩ :: below
      if target ∈ l.visited then { l with stack }
      else { l with visited := l.visited.insert target, stack := ⟨target, 0⟩ :: stack }

/-- A listing has come as far as a search. -/
structure Follows (next : BlockId → List BlockId) (s : Search) (l : Listing) : Prop where
  visited : l.visited = s.visited
  path : l.stack.map (Cursor.frame next) = s.path
  postOrder : l.postOrder = s.finished.reverse

theorem follows_start : Follows next (Search.start root (next root)) (start root) where
  visited := rfl
  path := rfl
  postOrder := rfl

/-- A listing keeps up with a search. A target on the path has been met, so it is passed over. -/
theorem Follows.stepped {l : Listing} (h : l.Follows next s) (hs : Search.Explored next root s)
    (hstep : Search.Stepped next s s') : (l.step next).Follows next s' := by
  cases hstep with
  | stay hpath =>
    have hstack : l.stack = [] := List.map_eq_nil_iff.mp (h.path.trans hpath)
    rw [step, hstack]
    exact h
  | finish hpath =>
    obtain ⟨looked, below, hstack, htarget, hbelow, -⟩ := exists_cursor (h.path.trans hpath)
    rw [step, hstack]
    simp only [htarget, List.head?_nil]
    exact ⟨h.visited, hbelow, by rw [h.postOrder, List.reverse_cons]⟩
  | retreat hpath hon =>
    obtain ⟨looked, below, hstack, htarget, -, hmoved⟩ := exists_cursor (h.path.trans hpath)
    rw [step, hstack]
    simp only [htarget, List.head?_cons, h.visited, if_pos (hs.mem_visited_of_mem_path hon)]
    exact ⟨rfl, hmoved, h.postOrder⟩
  | pass hpath _ hmet =>
    obtain ⟨looked, below, hstack, htarget, -, hmoved⟩ := exists_cursor (h.path.trans hpath)
    rw [step, hstack]
    simp only [htarget, List.head?_cons, h.visited, if_pos hmet]
    exact ⟨rfl, hmoved, h.postOrder⟩
  | @advance block target pending rest hpath hnew =>
    obtain ⟨looked, below, hstack, htarget, -, hmoved⟩ := exists_cursor (h.path.trans hpath)
    rw [step, hstack]
    simp only [htarget, List.head?_cons, h.visited, if_neg hnew]
    exact ⟨rfl, congrArg (List.cons (⟨target, next target⟩ : Frame)) hmoved, h.postOrder⟩

end Listing

/-- The traversal that marks the edges that lead back into its stack. -/
structure Marking where
  visited : BlockSet
  onStack : BlockSet
  stack : List Cursor
  marked : List (BlockId × BlockId)

namespace Marking

def start (root : BlockId) : Marking where
  visited := {root}
  onStack := {root}
  stack := [⟨root, 0⟩]
  marked := []

/-- Looks at one target of the current block, or leaves the block. -/
def step (next : BlockId → List BlockId) (m : Marking) : Marking :=
  match m.stack with
  | [] => m
  | ⟨block, looked⟩ :: below =>
    match (next block)[looked]? with
    | none => { m with onStack := m.onStack.erase block, stack := below }
    | some target =>
      let stack := ⟨block, looked + 1⟩ :: below
      if target ∈ m.onStack then { m with stack, marked := m.marked ++ [(block, target)] }
      else if target ∈ m.visited then { m with stack }
      else
        { m with
          visited := m.visited.insert target
          onStack := m.onStack.insert target
          stack := ⟨target, 0⟩ :: stack }

/-- A marking has come as far as a search. -/
structure Follows (next : BlockId → List BlockId) (s : Search) (m : Marking) : Prop where
  visited : m.visited = s.visited
  onStack : ∀ b, b ∈ m.onStack ↔ b ∈ s.path.map Frame.block
  path : m.stack.map (Cursor.frame next) = s.path
  marked : m.marked = s.retreating.reverse

theorem follows_start : Follows next (Search.start root (next root)) (start root) where
  visited := rfl
  onStack b := by
    rw [start, Std.ExtTreeSet.singleton_eq_insert, mem_set_insert]
    simp [Search.start]
  path := rfl
  marked := rfl

/-- A marking keeps up with a search, and the blocks on its stack are those on the path. -/
theorem Follows.stepped {m : Marking} (h : m.Follows next s) (hs : Search.Explored next root s)
    (hstep : Search.Stepped next s s') : (m.step next).Follows next s' := by
  cases hstep with
  | stay hpath =>
    have hstack : m.stack = [] := List.map_eq_nil_iff.mp (h.path.trans hpath)
    rw [step, hstack]
    exact h
  | @finish block rest hpath =>
    obtain ⟨looked, below, hstack, htarget, hbelow, -⟩ := exists_cursor (h.path.trans hpath)
    rw [step, hstack]
    simp only [htarget, List.head?_nil]
    refine ⟨h.visited, fun b ↦ ?_, hbelow, h.marked⟩
    have hfresh := (hs.current_fresh hpath).1
    rw [Std.ExtTreeSet.mem_erase, Ne, Std.LawfulEqCmp.compare_eq_iff_eq, h.onStack, hpath]
    constructor
    · rintro ⟨hne, hin⟩
      exact (List.mem_cons.mp hin).resolve_left (Ne.symm hne)
    · exact fun hin ↦ ⟨fun heq ↦ hfresh (heq ▸ hin), List.mem_cons_of_mem _ hin⟩
  | retreat hpath hon =>
    obtain ⟨looked, below, hstack, htarget, -, hmoved⟩ := exists_cursor (h.path.trans hpath)
    rw [step, hstack]
    simp only [htarget, List.head?_cons, h.onStack, if_pos hon]
    refine ⟨h.visited, fun b ↦ ?_, hmoved, by rw [h.marked, List.reverse_cons]⟩
    rw [h.onStack, hpath]
    rfl
  | pass hpath hoff hmet =>
    obtain ⟨looked, below, hstack, htarget, -, hmoved⟩ := exists_cursor (h.path.trans hpath)
    rw [step, hstack]
    simp only [htarget, List.head?_cons, h.onStack, if_neg hoff, h.visited, if_pos hmet]
    refine ⟨rfl, fun b ↦ ?_, hmoved, h.marked⟩
    rw [h.onStack, hpath]
    rfl
  | @advance block target pending rest hpath hnew =>
    have hoff : target ∉ s.path.map Frame.block := fun hon ↦ hnew (hs.mem_visited_of_mem_path hon)
    obtain ⟨looked, below, hstack, htarget, -, hmoved⟩ := exists_cursor (h.path.trans hpath)
    rw [step, hstack]
    simp only [htarget, List.head?_cons, h.onStack, if_neg hoff, h.visited, if_neg hnew]
    refine ⟨rfl, fun b ↦ ?_, congrArg (List.cons (⟨target, next target⟩ : Frame)) hmoved, h.marked⟩
    rw [mem_set_insert, h.onStack, hpath]
    exact List.mem_cons.symm

end Marking

end Traversal

namespace FlowGraph

open Traversal

section Graph

variable {imp : Implementation} {g : FlowGraph} (hg : FlowGraph.of? imp = some g)

include hg

/-- The search behind a flow graph. -/
theorem exists_search : ∃ s : Search, Search.Explored g.next g.entry s ∧ s.path = [] ∧
    g.rpo = s.finished ∧ g.retreating = s.retreating.reverse ∧
    ∃ steps, s = (Search.start g.entry (g.next g.entry)).run g.next steps := by
  obtain ⟨e, he, rfl⟩ := Option.map_eq_some_iff.mp hg
  exact ⟨search e, Search.explored_explore e.next e.successors.keys e.entry,
    Search.path_explore_eq_nil fun _ _ ↦ Edges.mem_keys_of_mem_next he, rfl, rfl, _, rfl⟩

/-- A listing ends with the blocks of the graph in postorder. -/
theorem exists_listing : ∃ steps,
    ((Listing.step g.next)^[steps] (.start g.entry)).stack = [] ∧
      ((Listing.step g.next)^[steps] (.start g.entry)).postOrder = g.postOrder := by
  obtain ⟨s, -, hover, hrpo, -, steps, rfl⟩ := exists_search hg
  have hend := follows_run (f := Listing.step g.next) (r := Listing.Follows g.next)
    (fun s _ hs h ↦ h.stepped hs (Search.stepped_step g.next s))
    (Search.explored_start g.next g.entry) Listing.follows_start steps
  refine ⟨steps, List.map_eq_nil_iff.mp (hend.path.trans hover), ?_⟩
  rw [hend.postOrder, postOrder, hrpo]

/-- A marking ends with the retreating edges of the graph. -/
theorem exists_marking : ∃ steps,
    ((Marking.step g.next)^[steps] (.start g.entry)).stack = [] ∧
      ((Marking.step g.next)^[steps] (.start g.entry)).marked = g.retreating := by
  obtain ⟨s, -, hover, -, hretreating, steps, rfl⟩ := exists_search hg
  have hend := follows_run (f := Marking.step g.next) (r := Marking.Follows g.next)
    (fun s _ hs h ↦ h.stepped hs (Search.stepped_step g.next s))
    (Search.explored_start g.next g.entry) Marking.follows_start steps
  refine ⟨steps, List.map_eq_nil_iff.mp (hend.path.trans hover), ?_⟩
  rw [hend.marked, hretreating]

/-- How often an edge of a block of the order retreats. -/
theorem count_retreating (hu : u ∈ g.rpo) : g.retreating.count (u, v) =
    if g.rpo.idxOf v ≤ g.rpo.idxOf u then (g.next u).count v else 0 := by
  obtain ⟨s, hs, hover, hrpo, hretreating, steps, rfl⟩ := exists_search hg
  have htallied := (Search.tallied_start g.next g.entry (g.next g.entry)).run
    (Search.explored_start g.next g.entry) steps
  rw [hrpo] at hu ⊢
  rw [hretreating, List.count_reverse, Search.count_retreating hs htallied hover hu]

end Graph

/-- An edge that does not retreat goes forward. -/
theorem Describes.idxOf_lt {g : FlowGraph} {entry : BlockId} (h : g.Describes next entry)
    (hu : Leads next entry u) (hedge : v ∈ next u) (hnot : (u, v) ∉ g.retreating) :
    g.rpo.idxOf u < g.rpo.idxOf v := by
  by_contra hle
  exact hnot ((h.mem_retreating u v).mpr ⟨hu, hedge, Nat.le_of_not_lt hle⟩)

/-- Where no reachable block lies on a cycle, no edge retreats. -/
theorem Describes.not_mem_retreating {g : FlowGraph} {entry : BlockId} (h : g.Describes next entry)
    (hacyclic : ∀ b left, Leads next entry b → Walk next b left b → left = []) :
    (u, v) ∉ g.retreating := by
  intro hr
  obtain ⟨above, below, habove, hbelow, -⟩ := h.retreating_walk u v hr
  have hcycle := hacyclic v (below ++ [u]) ⟨above, habove⟩
    (hbelow.snoc ((h.mem_retreating u v).mp hr).2.1)
  simp at hcycle

/-- The listing and the marking fit together. The listing gives every reachable block once, the
entry last, and reverse postorder is this list reversed. The marking records an edge of a reachable
block once for every occurrence of its target if the target does not come after the source in
reverse postorder, and not at all if it does. So edges that do not retreat go forward, and where the
reachable blocks have no cycle, all edges do. -/
theorem traversals_fit (imp : Implementation) (hids : imp.blockIds.Nodup)
    (hblocks : imp.blocks ≠ []) :
    ∃ g, FlowGraph.of? imp = some g ∧ (∀ u, g.next u = imp.targetsOf u) ∧
      (∃ steps, ((Listing.step g.next)^[steps] (.start g.entry)).stack = [] ∧
        ((Listing.step g.next)^[steps] (.start g.entry)).postOrder = g.postOrder) ∧
      (∃ steps, ((Marking.step g.next)^[steps] (.start g.entry)).stack = [] ∧
        ((Marking.step g.next)^[steps] (.start g.entry)).marked = g.retreating) ∧
      g.postOrder.Nodup ∧ (∀ b, b ∈ g.postOrder ↔ imp.Reachable b) ∧
      g.postOrder.getLast? = imp.entry? ∧ g.rpo = g.postOrder.reverse ∧
      (∀ u v, imp.Reachable u → g.retreating.count (u, v) =
        if g.rpo.idxOf v ≤ g.rpo.idxOf u then (imp.targetsOf u).count v else 0) ∧
      (∀ u v, (u, v) ∈ g.retreating → imp.Reachable u ∧ v ∈ imp.targetsOf u) ∧
      (∀ u v, imp.Reachable u → v ∈ imp.targetsOf u → (u, v) ∉ g.retreating →
        g.rpo.idxOf u < g.rpo.idxOf v) ∧
      ((∀ b left, imp.Reachable b → Walk imp.targetsOf b left b → left = []) →
        ∀ u v, imp.Reachable u → v ∈ imp.targetsOf u → g.rpo.idxOf u < g.rpo.idxOf v) := by
  obtain ⟨entry, hentry⟩ := Implementation.exists_entry? hblocks
  obtain ⟨g, hg⟩ := exists_of? hentry
  have hdescribes := describes_of? hids hg hentry
  have hreach : ∀ b, imp.Reachable b ↔ Leads imp.targetsOf entry b :=
    fun b ↦ Implementation.reachable_iff hentry
  have hnext : ∀ u, g.next u = imp.targetsOf u := by
    obtain ⟨e, he, rfl⟩ := Option.map_eq_some_iff.mp hg
    exact Edges.next_eq_targetsOf hids he
  have hforward : ∀ u v, imp.Reachable u → v ∈ imp.targetsOf u → (u, v) ∉ g.retreating →
      g.rpo.idxOf u < g.rpo.idxOf v :=
    fun u v hu hedge hnot ↦ hdescribes.idxOf_lt ((hreach u).mp hu) hedge hnot
  refine ⟨g, hg, hnext, exists_listing hg, exists_marking hg, ?_, fun b ↦ ?_, ?_, ?_,
    fun u v hu ↦ ?_, fun u v hr ↦ ?_, hforward, fun hacyclic u v hu hedge ↦ ?_⟩
  · exact List.nodup_reverse.mpr hdescribes.nodup_rpo
  · rw [postOrder, List.mem_reverse, hdescribes.mem_rpo, hreach]
  · rw [postOrder, List.getLast?_reverse, hdescribes.head_rpo, hentry]
  · rw [postOrder, List.reverse_reverse]
  · rw [count_retreating hg ((hdescribes.mem_rpo u).mpr ((hreach u).mp hu)), hnext]
  · obtain ⟨hu, hedge, -⟩ := (hdescribes.mem_retreating u v).mp hr
    exact ⟨(hreach u).mpr hu, hedge⟩
  · refine hforward u v hu hedge (hdescribes.not_mem_retreating fun b left hb ↦ ?_)
    exact hacyclic b left ((hreach b).mpr hb)

/-- A block names the entry twice and itself once, another is met twice, and a third is not met. -/
def winding : Implementation where
  id := ⟨0⟩
  procedure := ⟨0⟩
  name := "winding"
  ins := []
  outs := []
  locals := []
  blocks :=
    [⟨⟨0⟩, "entry", [], .goto [⟨1⟩, ⟨2⟩], [], .zero⟩,
      ⟨⟨1⟩, "turn", [], .goto [⟨0⟩, ⟨2⟩, ⟨1⟩, ⟨0⟩, ⟨9⟩], [], .zero⟩,
      ⟨⟨2⟩, "last", [], .ret, [], .zero⟩,
      ⟨⟨3⟩, "apart", [], .goto [⟨0⟩], [], .zero⟩]
  span := .zero

theorem traversals_fit_winding : winding.blockIds.Nodup ∧ winding.blocks ≠ [] ∧
    ∃ g, FlowGraph.of? winding = some g ∧ g.rpo = [⟨0⟩, ⟨1⟩, ⟨2⟩] ∧
      (∃ steps, ((Marking.step g.next)^[steps] (.start g.entry)).marked = g.retreating) ∧
      g.retreating.count (⟨1⟩, ⟨0⟩) = 2 ∧ g.retreating.count (⟨1⟩, ⟨1⟩) = 1 ∧
      g.retreating.count (⟨1⟩, ⟨2⟩) = 0 := by
  have hrpo : (FlowGraph.of? winding).map (·.rpo) = some [⟨0⟩, ⟨1⟩, ⟨2⟩] := by decide +kernel
  obtain ⟨g, hg, -, -, ⟨steps, -, hmarked⟩, -, -, -, -, hcount, -⟩ :=
    traversals_fit winding (by decide) (List.cons_ne_nil _ _)
  rw [hg, Option.map_some, Option.some.injEq] at hrpo
  have hreach : winding.Reachable ⟨1⟩ := by decide +kernel
  refine ⟨by decide, List.cons_ne_nil _ _, g, hg, hrpo, ⟨steps, hmarked⟩, ?_, ?_, ?_⟩
  · rw [hcount _ _ hreach, hrpo]
    decide
  · rw [hcount _ _ hreach, hrpo]
    decide
  · rw [hcount _ _ hreach, hrpo]
    decide

end FlowGraph

end OwnershipFlow
