import Mathlib.Data.List.Nodup
import Mathlib.Tactic.Tauto
import OwnershipFlow.FlowGraph.Search
import OwnershipFlow.Proofs.Collections
import OwnershipFlow.Proofs.Fixpoint
import OwnershipFlow.Proofs.Walk

/-!
# What a depth-first search finds

The blocks met by a search stand in one order throughout: those on its path from the root on, then
the finished ones (`Search.order`). Finishing a block leaves this order as it is, and a new block is
put in right behind the block from which it was met, so which of two blocks precedes the other
(`Precedes`) is settled once both have been met.

The invariant `Search.Explored` says what is known about a search at any time: the path is a walk
from the root, every block but the root was met from one that precedes it, and every target looked
at either made a retreating edge or is preceded by the block that named it. Whatever a step does
(`Search.Stepped`), it keeps the invariant (`Explored.stepped`) and uses up part of the work that is
left (`remaining_lt_of_stepped`), so a search given its budget comes to an end
(`path_explore_eq_nil`).

At the end the order is the list of finished blocks. It holds each block to which the root leads
once (`Explored.mem_finished_iff`, `Explored.nodup_finished`), and an edge retreats exactly if its
target does not come after its source (`Explored.mem_retreating_iff`).
-/

set_option autoImplicit false
set_option relaxedAutoImplicit false

namespace OwnershipFlow

/-! ### Precedence in a list -/

section Precedence

variable {α : Type} {l l' first second : List α} {a b : α}

/-- One member of a list stands before another. -/
def Precedes (l : List α) (a b : α) : Prop :=
  [a, b].Sublist l

theorem Precedes.mem_left (h : Precedes l a b) : a ∈ l :=
  h.subset List.mem_cons_self

theorem Precedes.mem_right (h : Precedes l a b) : b ∈ l :=
  h.subset (List.mem_cons_of_mem _ List.mem_cons_self)

theorem Precedes.mono (h : Precedes l a b) (hsub : l.Sublist l') : Precedes l' a b :=
  List.Sublist.trans h hsub

theorem precedes_append (ha : a ∈ first) (hb : b ∈ second) : Precedes (first ++ second) a b :=
  (List.singleton_sublist.mpr ha).append (List.singleton_sublist.mpr hb)

/-- In a list without repetitions the member that stands before has the smaller position. -/
theorem Precedes.idxOf_lt [DecidableEq α] (h : Precedes l a b) (hl : l.Nodup) :
    l.idxOf a < l.idxOf b := by
  induction l with
  | nil => exact absurd h.mem_left List.not_mem_nil
  | cons x rest ih =>
    obtain ⟨hx, hrest⟩ := List.nodup_cons.mp hl
    cases h with
    | cons _ h =>
      have hin : Precedes rest a b := h
      have ha : x ≠ a := fun heq ↦ hx (heq ▸ hin.mem_left)
      have hb : x ≠ b := fun heq ↦ hx (heq ▸ hin.mem_right)
      rw [List.idxOf_cons_ne _ ha, List.idxOf_cons_ne _ hb]
      exact Nat.succ_lt_succ (ih hin hrest)
    | cons_cons _ h =>
      have hb : a ≠ b := fun heq ↦ hx (heq ▸ List.singleton_sublist.mp h)
      rw [List.idxOf_cons_self, List.idxOf_cons_ne _ hb]
      exact Nat.succ_pos _

end Precedence

namespace Search

/-! ### The steps of a search -/

/-- What a step makes of a search: nothing if it is over, else it finishes the current block or
looks at the next one of its targets. -/
inductive Stepped (next : BlockId → List BlockId) (s : Search) : Search → Prop
  | stay (hpath : s.path = []) : Stepped next s s
  | finish {block : BlockId} {rest : List Frame} (hpath : s.path = ⟨block, []⟩ :: rest) :
      Stepped next s { s with path := rest, finished := block :: s.finished }
  | retreat {block target : BlockId} {pending : List BlockId} {rest : List Frame}
      (hpath : s.path = ⟨block, target :: pending⟩ :: rest)
      (hon : target ∈ s.path.map Frame.block) :
      Stepped next s { s with
        path := ⟨block, pending⟩ :: rest, retreating := (block, target) :: s.retreating }
  | pass {block target : BlockId} {pending : List BlockId} {rest : List Frame}
      (hpath : s.path = ⟨block, target :: pending⟩ :: rest)
      (hoff : target ∉ s.path.map Frame.block) (hmet : target ∈ s.visited) :
      Stepped next s { s with path := ⟨block, pending⟩ :: rest }
  | advance {block target : BlockId} {pending : List BlockId} {rest : List Frame}
      (hpath : s.path = ⟨block, target :: pending⟩ :: rest) (hnew : target ∉ s.visited) :
      Stepped next s { s with
        visited := s.visited.insert target
        path := ⟨target, next target⟩ :: ⟨block, pending⟩ :: rest }

theorem stepped_step (next : BlockId → List BlockId) (s : Search) :
    Stepped next s (s.step next) := by
  rw [step]
  split
  · exact .stay ‹_›
  · exact .finish ‹_›
  · rename_i block target pending rest hpath
    have hblocks : s.path.map Frame.block =
        (⟨block, pending⟩ :: rest : List Frame).map Frame.block := by
      rw [hpath]
      rfl
    dsimp only
    split
    · rename_i hon
      exact .retreat hpath (hblocks ▸ List.contains_iff_mem.mp hon)
    · rename_i hoff
      split
      · exact .pass hpath (fun hon ↦ hoff (List.contains_iff_mem.mpr (hblocks ▸ hon))) ‹_›
      · exact .advance hpath ‹_›

/-! ### The invariant of a search -/

/-- The blocks met: those on the path from the root on, then the finished ones. -/
def order (s : Search) : List BlockId :=
  (s.path.map Frame.block).reverse ++ s.finished

/-- An edge that has been looked at: it retreats, or its source precedes its target. -/
def Settled (s : Search) (u v : BlockId) : Prop :=
  (u, v) ∈ s.retreating ∨ Precedes s.order u v

/-- What is known about a search from a root at any time. -/
structure Explored (next : BlockId → List BlockId) (root : BlockId) (s : Search) : Prop where
  nodup : s.order.Nodup
  mem_visited : ∀ b, b ∈ s.visited ↔ b ∈ s.order
  head : s.order.head? = some root
  walk : ∀ frame rest, s.path = frame :: rest →
    Walk next root (rest.map Frame.block).reverse frame.block
  looked : ∀ frame ∈ s.path, ∃ looked, next frame.block = looked ++ frame.pending ∧
    ∀ v ∈ looked, s.Settled frame.block v
  finished : ∀ u ∈ s.finished, ∀ v ∈ next u, s.Settled u v
  retreating : ∀ u v, (u, v) ∈ s.retreating → v ∈ next u ∧ (v = u ∨ Precedes s.order v u) ∧
    ∃ above below, Walk next root above v ∧ Walk next v below u ∧ (above ++ below ++ [u]).Nodup
  parent : ∀ b ∈ s.order, b ≠ root → ∃ u, b ∈ next u ∧ Precedes s.order u b

variable {next : BlockId → List BlockId} {root block target u v : BlockId} {s s' : Search}
  {pending : List BlockId} {rest : List Frame}

theorem Settled.mono (h : s.Settled u v) (horder : s.order.Sublist s'.order)
    (hretreating : s.retreating ⊆ s'.retreating) : s'.Settled u v :=
  h.imp (fun hr ↦ hretreating hr) fun hp ↦ hp.mono horder

theorem order_of_path (hpath : s.path = ⟨block, pending⟩ :: rest) :
    s.order = (rest.map Frame.block).reverse ++ [block] ++ s.finished := by
  rw [order, hpath, List.map_cons, List.reverse_cons]

theorem explored_start (next : BlockId → List BlockId) (root : BlockId) :
    Explored next root (start root (next root)) where
  nodup := List.nodup_singleton root
  mem_visited b := by
    have hsingle : b ∈ (start root (next root)).visited ↔ b = root := by
      rw [start, Std.ExtTreeSet.singleton_eq_insert, mem_set_insert]
      simp
    rw [hsingle]
    exact List.mem_singleton.symm
  head := rfl
  walk frame rest h := by
    obtain ⟨rfl, rfl⟩ := List.cons.inj h
    exact .nil root
  looked frame h := by
    obtain rfl := List.mem_singleton.mp h
    exact ⟨[], rfl, fun v hv ↦ absurd hv List.not_mem_nil⟩
  finished u hu := absurd hu List.not_mem_nil
  retreating u v h := absurd h List.not_mem_nil
  parent b hb hne := absurd (List.mem_singleton.mp hb) hne

namespace Explored

theorem mem_next (h : Explored next root s) (hpath : s.path = ⟨block, target :: pending⟩ :: rest) :
    target ∈ next block := by
  obtain ⟨looked, heq, -⟩ := h.looked ⟨block, target :: pending⟩ (hpath ▸ List.mem_cons_self)
  rw [heq]
  exact List.mem_append_right _ List.mem_cons_self

/-- The source of an edge that retreats does not precede its target. -/
theorem not_precedes (h : Explored next root s) (hr : (u, v) ∈ s.retreating) :
    ¬ Precedes s.order u v := by
  intro hp
  have hlt := hp.idxOf_lt h.nodup
  rcases (h.retreating u v hr).2.1 with rfl | hback
  · exact Nat.lt_irrefl _ hlt
  · exact Nat.lt_asymm hlt (hback.idxOf_lt h.nodup)

/-- The current block is nowhere else on the path, and it is not finished. -/
theorem current_fresh (h : Explored next root s) (hpath : s.path = ⟨block, pending⟩ :: rest) :
    block ∉ rest.map Frame.block ∧ block ∉ s.finished := by
  have hnodup := h.nodup
  rw [order_of_path hpath, List.append_assoc] at hnodup
  have hfresh := (List.nodup_cons.mp (List.perm_middle.nodup_iff.mp hnodup)).1
  simpa using hfresh

theorem mem_visited_of_mem_path (h : Explored next root s)
    (hu : u ∈ s.path.map Frame.block) : u ∈ s.visited :=
  (h.mem_visited u).mpr (List.mem_append_left _ (List.mem_reverse.mpr hu))

/-- A change that keeps the order leaves only the path and the edges to be checked. -/
theorem of_order_eq (h : Explored next root s) (horder : s'.order = s.order)
    (hvisited : s'.visited = s.visited)
    (hwalk : ∀ frame rest, s'.path = frame :: rest →
      Walk next root (rest.map Frame.block).reverse frame.block)
    (hlooked : ∀ frame ∈ s'.path, ∃ looked, next frame.block = looked ++ frame.pending ∧
      ∀ v ∈ looked, s'.Settled frame.block v)
    (hfinished : ∀ u ∈ s'.finished, ∀ v ∈ next u, s'.Settled u v)
    (hretreating : ∀ u v, (u, v) ∈ s'.retreating →
      v ∈ next u ∧ (v = u ∨ Precedes s'.order v u) ∧
        ∃ above below, Walk next root above v ∧ Walk next v below u ∧
          (above ++ below ++ [u]).Nodup) : Explored next root s' where
  nodup := horder ▸ h.nodup
  mem_visited b := by rw [horder, hvisited, h.mem_visited]
  head := horder ▸ h.head
  walk := hwalk
  looked := hlooked
  finished := hfinished
  retreating := hretreating
  parent := horder ▸ h.parent

/-- Looking at one more target, which is settled, leaves what was settled as it is. -/
theorem looked_cons (h : Explored next root s)
    (hpath : s.path = ⟨block, target :: pending⟩ :: rest) (horder : s.order.Sublist s'.order)
    (hretreating : s.retreating ⊆ s'.retreating) (hnew : s'.Settled block target) :
    ∀ frame ∈ (⟨block, pending⟩ : Frame) :: rest, ∃ looked,
      next frame.block = looked ++ frame.pending ∧ ∀ v ∈ looked, s'.Settled frame.block v := by
  intro frame hframe
  rcases List.mem_cons.mp hframe with rfl | hframe
  · obtain ⟨looked, heq, hlooked⟩ := h.looked ⟨block, target :: pending⟩
      (hpath ▸ List.mem_cons_self)
    refine ⟨looked ++ [target], by simpa using heq, ?_⟩
    intro v hv
    rcases List.mem_append.mp hv with hv | hv
    · exact (hlooked v hv).mono horder hretreating
    · obtain rfl := List.mem_singleton.mp hv
      exact hnew
  · obtain ⟨looked, heq, hlooked⟩ := h.looked frame (hpath ▸ List.mem_cons_of_mem _ hframe)
    exact ⟨looked, heq, fun v hv ↦ (hlooked v hv).mono horder hretreating⟩

/-- A block without targets left is finished in its place. -/
theorem finish (h : Explored next root s) (hpath : s.path = ⟨block, []⟩ :: rest)
    (hs' : s' = { s with path := rest, finished := block :: s.finished }) :
    Explored next root s' := by
  have horder : s'.order = s.order := by
    rw [order_of_path hpath, order, hs', List.append_assoc]
    rfl
  have hsub : s.order.Sublist s'.order := horder ▸ List.Sublist.refl _
  have hmore : s.retreating ⊆ s'.retreating := by rw [hs']; exact List.Subset.refl _
  have hpath' : s'.path = rest := by rw [hs']
  refine h.of_order_eq horder (by rw [hs']) ?_ ?_ ?_ ?_
  · intro frame deeper hrest
    have hwalk := h.walk _ _ hpath
    rw [← hpath', hrest, List.map_cons, List.reverse_cons] at hwalk
    exact hwalk.of_snoc.1
  · intro frame hframe
    rw [hpath'] at hframe
    obtain ⟨looked, heq, hlooked⟩ := h.looked frame (hpath ▸ List.mem_cons_of_mem _ hframe)
    exact ⟨looked, heq, fun v hv ↦ (hlooked v hv).mono hsub hmore⟩
  · intro u hu v hv
    rw [hs'] at hu
    rcases List.mem_cons.mp hu with rfl | hu
    · obtain ⟨looked, heq, hlooked⟩ := h.looked ⟨u, []⟩ (hpath ▸ List.mem_cons_self)
      rw [heq, List.append_nil] at hv
      exact (hlooked v hv).mono hsub hmore
    · exact (h.finished u hu v hv).mono hsub hmore
  · intro u v huv
    rw [hs'] at huv
    rw [horder]
    exact h.retreating u v huv

/-- A target that has been met and is not on the path comes after every block of the path. -/
theorem pass (h : Explored next root s) (hpath : s.path = ⟨block, target :: pending⟩ :: rest)
    (hoff : target ∉ s.path.map Frame.block) (hmet : target ∈ s.visited)
    (hs' : s' = { s with path := ⟨block, pending⟩ :: rest }) : Explored next root s' := by
  have horder : s'.order = s.order := by
    rw [order, order, hs', hpath]
    rfl
  have hsub : s.order.Sublist s'.order := horder ▸ List.Sublist.refl _
  have hmore : s.retreating ⊆ s'.retreating := by rw [hs']; exact List.Subset.refl _
  have hpath' : s'.path = ⟨block, pending⟩ :: rest := by rw [hs']
  have hnew : s.Settled block target := by
    rcases List.mem_append.mp ((h.mem_visited target).mp hmet) with hin | hin
    · exact absurd (List.mem_reverse.mp hin) hoff
    · exact Or.inr (precedes_append (by simp [hpath]) hin)
  refine h.of_order_eq horder (by rw [hs']) ?_ ?_ ?_ ?_
  · intro frame deeper hrest
    rw [hpath'] at hrest
    obtain ⟨rfl, rfl⟩ := List.cons.inj hrest
    exact h.walk ⟨block, target :: pending⟩ rest hpath
  · rw [hpath']
    exact h.looked_cons hpath hsub hmore (hnew.mono hsub hmore)
  · intro u hu v hv
    rw [hs'] at hu
    exact (h.finished u hu v hv).mono hsub hmore
  · intro u v huv
    rw [hs'] at huv
    rw [horder]
    exact h.retreating u v huv

/-- A target on the path closes a walk along the path, and its edge retreats. -/
theorem retreat (h : Explored next root s) (hpath : s.path = ⟨block, target :: pending⟩ :: rest)
    (hon : target ∈ s.path.map Frame.block)
    (hs' : s' = { s with
      path := ⟨block, pending⟩ :: rest, retreating := (block, target) :: s.retreating }) :
    Explored next root s' := by
  have horder : s'.order = s.order := by
    rw [order, order, hs', hpath]
    rfl
  have hsub : s.order.Sublist s'.order := horder ▸ List.Sublist.refl _
  have hretreating : s'.retreating = (block, target) :: s.retreating := by rw [hs']
  have hmore : s.retreating ⊆ s'.retreating := hretreating ▸ List.subset_cons_self _ _
  have hpath' : s'.path = ⟨block, pending⟩ :: rest := by rw [hs']
  have hwalk := h.walk _ _ hpath
  have hnodup : ((rest.map Frame.block).reverse ++ [block]).Nodup := by
    have hnodup := h.nodup
    rw [order_of_path hpath] at hnodup
    exact (List.nodup_append.mp hnodup).1
  refine h.of_order_eq horder (by rw [hs']) ?_ ?_ ?_ ?_
  · intro frame deeper hrest
    rw [hpath'] at hrest
    obtain ⟨rfl, rfl⟩ := List.cons.inj hrest
    exact hwalk
  · rw [hpath']
    exact h.looked_cons hpath hsub hmore (Or.inl (hretreating ▸ List.mem_cons_self))
  · intro u hu v hv
    rw [hs'] at hu
    exact (h.finished u hu v hv).mono hsub hmore
  · intro u v huv
    rw [horder]
    rw [hretreating] at huv
    rcases List.mem_cons.mp huv with heq | huv
    · obtain ⟨rfl, rfl⟩ := Prod.mk.inj heq
      refine ⟨h.mem_next hpath, ?_⟩
      rw [hpath, List.map_cons] at hon
      rcases List.mem_cons.mp hon with rfl | hon
      · exact ⟨Or.inl rfl, (rest.map Frame.block).reverse, [], hwalk, .nil _, by simpa using hnodup⟩
      · obtain ⟨above, below, hsplit⟩ := List.mem_iff_append.mp (List.mem_reverse.mpr hon)
        rw [hsplit] at hwalk hnodup
        refine ⟨Or.inr ?_, above, v :: below, hwalk.split.1, hwalk.split.2, hnodup⟩
        rw [order_of_path hpath, hsplit, List.append_assoc]
        exact precedes_append (by simp) (by simp)
    · exact h.retreating u v huv

/-- A new block is put in right behind the block from which it was met. -/
theorem advance (h : Explored next root s)
    (hpath : s.path = ⟨block, target :: pending⟩ :: rest) (hnew : target ∉ s.visited)
    (hs' : s' = { s with
      visited := s.visited.insert target
      path := ⟨target, next target⟩ :: ⟨block, pending⟩ :: rest }) : Explored next root s' := by
  have hold := order_of_path hpath
  have horder : s'.order = (rest.map Frame.block).reverse ++ [block] ++ target :: s.finished := by
    rw [order, hs']
    simp
  have hsub : s.order.Sublist s'.order := by
    rw [horder, hold]
    exact (List.Sublist.refl _).append (List.sublist_cons_self _ _)
  have hretreating : s'.retreating = s.retreating := by rw [hs']
  have hmore : s.retreating ⊆ s'.retreating := hretreating ▸ List.Subset.refl _
  have hpath' : s'.path = ⟨target, next target⟩ :: ⟨block, pending⟩ :: rest := by rw [hs']
  have hfresh : target ∉ s.order := fun hin ↦ hnew ((h.mem_visited target).mpr hin)
  have hprecedes : Precedes s'.order block target := by
    rw [horder]
    exact precedes_append (by simp) List.mem_cons_self
  have hmem : ∀ b, b ∈ s'.order ↔ b = target ∨ b ∈ s.order := by
    intro b
    rw [horder, hold]
    simp only [List.mem_append, List.mem_cons]
    tauto
  constructor
  case nodup =>
    rw [horder]
    exact List.perm_middle.nodup_iff.mpr (List.nodup_cons.mpr ⟨hold ▸ hfresh, hold ▸ h.nodup⟩)
  case mem_visited =>
    intro b
    rw [hmem, hs', mem_set_insert, h.mem_visited]
  case head =>
    have hhead := h.head
    rw [hold] at hhead
    rw [horder]
    cases hblocks : (rest.map Frame.block).reverse ++ [block] with
    | nil => simp at hblocks
    | cons x blocks =>
      rw [hblocks] at hhead
      exact hhead
  case walk =>
    intro frame deeper hrest
    rw [hpath'] at hrest
    obtain ⟨rfl, rfl⟩ := List.cons.inj hrest
    rw [List.map_cons, List.reverse_cons]
    exact (h.walk _ _ hpath).snoc (h.mem_next hpath)
  case looked =>
    intro frame hframe
    rw [hpath'] at hframe
    rcases List.mem_cons.mp hframe with rfl | hframe
    · exact ⟨[], rfl, fun v hv ↦ absurd hv List.not_mem_nil⟩
    · exact h.looked_cons hpath hsub hmore (Or.inr hprecedes) frame hframe
  case finished =>
    intro u hu v hv
    rw [hs'] at hu
    exact (h.finished u hu v hv).mono hsub hmore
  case retreating =>
    intro u v huv
    obtain ⟨hedge, hbefore, hwalks⟩ := h.retreating u v (hretreating ▸ huv)
    exact ⟨hedge, hbefore.imp_right fun hp ↦ hp.mono hsub, hwalks⟩
  case parent =>
    intro b hb hne
    rcases (hmem b).mp hb with rfl | hb
    · exact ⟨block, h.mem_next hpath, hprecedes⟩
    · obtain ⟨u, hedge, hp⟩ := h.parent b hb hne
      exact ⟨u, hedge, hp.mono hsub⟩

/-- Every step of a search keeps what is known about it. -/
theorem stepped (h : Explored next root s) (hstep : Stepped next s s') :
    Explored next root s' := by
  cases hstep with
  | stay _ => exact h
  | finish hpath => exact h.finish hpath rfl
  | retreat hpath hon => exact h.retreat hpath hon rfl
  | pass hpath hoff hmet => exact h.pass hpath hoff hmet rfl
  | advance hpath hnew => exact h.advance hpath hnew rfl

theorem step (h : Explored next root s) : Explored next root (s.step next) :=
  h.stepped (stepped_step next s)

theorem run (h : Explored next root s) (steps : Nat) : Explored next root (s.run next steps) := by
  induction steps generalizing s with
  | zero => exact h
  | succ steps ih => exact ih h.step

end Explored

/-! ### The end of a search -/

/-- The work that is left: the targets still to be looked at and the blocks still to be finished,
those that have not been met included. -/
def remaining (next : BlockId → List BlockId) (blocks : List BlockId) (s : Search) : Nat :=
  (s.path.map fun frame ↦ frame.pending.length + 1).sum +
    (blocks.map fun b ↦ if b ∈ s.visited then 0 else (next b).length + 1).sum

/-- A step of a search that is not over leaves less work. -/
theorem remaining_lt_of_stepped {blocks : List BlockId} (h : Explored next root s)
    (hclosed : ∀ b, ∀ v ∈ next b, v ∈ blocks) (hpath : s.path ≠ []) (hstep : Stepped next s s') :
    remaining next blocks s' < remaining next blocks s := by
  cases hstep with
  | stay hnil => exact absurd hnil hpath
  | finish hpath => simp [remaining, hpath]
  | retreat hpath _ => simp [remaining, hpath]
  | pass hpath _ _ => simp [remaining, hpath]
  | @advance block target pending rest hpath hnew =>
    have hunmet : (blocks.map fun b ↦
          if b ∈ s.visited.insert target then 0 else (next b).length + 1).sum +
          ((next target).length + 1) ≤
        (blocks.map fun b ↦ if b ∈ s.visited then 0 else (next b).length + 1).sum := by
      refine sum_map_add_le (fun b _ ↦ ?_) (hclosed _ _ (h.mem_next hpath)) ?_
      · simp only [mem_set_insert]
        split_ifs <;> simp_all
      · simp [hnew]
    simp only [remaining, hpath, List.map_cons, List.sum_cons, List.length_cons]
    omega

theorem path_run_eq_nil {blocks : List BlockId} {steps : Nat} (h : Explored next root s)
    (hclosed : ∀ b, ∀ v ∈ next b, v ∈ blocks) (hsteps : remaining next blocks s ≤ steps) :
    (s.run next steps).path = [] := by
  induction steps generalizing s with
  | zero =>
    by_contra hpath
    have hless := remaining_lt_of_stepped h hclosed hpath (stepped_step next s)
    omega
  | succ steps ih =>
    by_cases hpath : s.path = []
    · rw [run_of_path_nil next hpath]
      exact hpath
    · have hless := remaining_lt_of_stepped h hclosed hpath (stepped_step next s)
      exact ih h.step (by omega)

theorem remaining_start_le (next : BlockId → List BlockId) (blocks : List BlockId)
    (root : BlockId) (targets : List BlockId) :
    remaining next blocks (start root targets) ≤ budget next blocks targets := by
  have hunmet : (blocks.map fun b ↦
      if b ∈ (start root targets).visited then 0 else (next b).length + 1).sum ≤
        blocks.length + (blocks.flatMap next).length := by
    rw [List.length_flatMap]
    induction blocks with
    | nil => exact Nat.le_refl 0
    | cons b rest ih =>
      simp only [List.map_cons, List.sum_cons, List.length_cons]
      split_ifs <;> omega
  have hpath : ((start root targets).path.map fun frame ↦ frame.pending.length + 1).sum =
      targets.length + 1 := by
    simp [start]
  rw [remaining, budget, hpath]
  omega

/-- A search in which only members of `blocks` are met is over after its budget. -/
theorem path_explore_eq_nil {blocks : List BlockId} (hclosed : ∀ b, ∀ v ∈ next b, v ∈ blocks) :
    (explore next blocks root (next root)).path = [] :=
  path_run_eq_nil (explored_start next root) hclosed (remaining_start_le next blocks root _)

theorem explored_explore (next : BlockId → List BlockId) (blocks : List BlockId)
    (root : BlockId) : Explored next root (explore next blocks root (next root)) :=
  (explored_start next root).run _

namespace Explored

variable {b : BlockId}

theorem mem_order_of_settled (h : Explored next root s) (hu : u ∈ s.order)
    (hsettled : s.Settled u v) : v ∈ s.order := by
  rcases hsettled with hr | hp
  · rcases (h.retreating u v hr).2.1 with rfl | hp
    · exact hu
    · exact hp.mem_left
  · exact hp.mem_right

/-- The root leads to every block met. -/
theorem leads (h : Explored next root s) (hb : b ∈ s.order) : Leads next root b := by
  induction hn : s.order.idxOf b using Nat.strong_induction_on generalizing b with
  | _ n ih =>
    by_cases hroot : b = root
    · exact hroot ▸ Leads.refl b
    · obtain ⟨u, hedge, hp⟩ := h.parent b hb hroot
      exact (ih _ (hn ▸ hp.idxOf_lt h.nodup) hp.mem_left rfl).step hedge

variable (h : Explored next root s) (hover : s.path = [])

include hover in
theorem order_eq_finished : s.order = s.finished := by
  rw [order, hover]
  rfl

include h hover

theorem nodup_finished : s.finished.Nodup :=
  order_eq_finished hover ▸ h.nodup

/-- The root is finished last. -/
theorem head_finished : s.finished.head? = some root :=
  order_eq_finished hover ▸ h.head

/-- A search that is over has finished exactly the blocks to which its root leads. -/
theorem mem_finished_iff : b ∈ s.finished ↔ Leads next root b := by
  constructor
  · intro hb
    exact h.leads (order_eq_finished hover ▸ hb)
  · intro hb
    refine hb.induct (List.mem_of_mem_head? (h.head_finished hover)) fun u v hu hv ↦ ?_
    have hmem := h.mem_order_of_settled (order_eq_finished hover ▸ hu) (h.finished u hu v hv)
    exact order_eq_finished hover ▸ hmem

theorem mem_visited_iff : b ∈ s.visited ↔ Leads next root b := by
  rw [h.mem_visited, order_eq_finished hover, h.mem_finished_iff hover]

/-- Every finished block but the root has an edge from a block before it. -/
theorem exists_edge_before (hb : b ∈ s.finished) (hne : b ≠ root) :
    ∃ u ∈ s.finished, b ∈ next u ∧ s.finished.idxOf u < s.finished.idxOf b := by
  obtain ⟨u, hedge, hp⟩ := h.parent b (order_eq_finished hover ▸ hb) hne
  rw [order_eq_finished hover] at hp
  exact ⟨u, hp.mem_left, hedge, hp.idxOf_lt (h.nodup_finished hover)⟩

/-- An edge retreats exactly if its target does not come after its source. -/
theorem mem_retreating_iff : (u, v) ∈ s.retreating ↔
    Leads next root u ∧ v ∈ next u ∧ s.finished.idxOf v ≤ s.finished.idxOf u := by
  have hnodup := h.nodup_finished hover
  constructor
  · intro hr
    obtain ⟨hedge, hbefore, above, below, habove, hbelow, -⟩ := h.retreating u v hr
    refine ⟨⟨_, habove.append hbelow⟩, hedge, ?_⟩
    rw [order_eq_finished hover] at hbefore
    rcases hbefore with rfl | hp
    · exact Nat.le_refl _
    · exact (hp.idxOf_lt hnodup).le
  · rintro ⟨hu, hedge, hle⟩
    rcases h.finished u ((h.mem_finished_iff hover).mpr hu) v hedge with hr | hp
    · exact hr
    · rw [order_eq_finished hover] at hp
      have := hp.idxOf_lt hnodup
      omega

end Explored

end Search

end OwnershipFlow
