import Mathlib.Logic.Function.Basic
import OwnershipFlow.Proofs.Search

/-!
# Searches in lockstep

A search looks up the targets of a block only when it meets the block, and its root is met from the
start. So two searches from one root go through the same states if their edges agree at the other
blocks to which the root leads (`run_congr`). Their budgets may differ, but a search that is over
does not depend on how many steps were allowed (`run_eq_of_over`). So a full search stays what it is
when edges change out of its reach (`explore_congr`), and a search whose root is given targets of
its own is the full search of a graph in which these are the root's targets
(`mem_visited_explore_iff`).

A search of a renamed graph goes through the renamed states (`Mirrors.step`, `mirrors_explore`). All
that a search decides is whether blocks are the same, so the renaming need not keep any order of the
identifiers.
-/

set_option autoImplicit false
set_option relaxedAutoImplicit false

namespace OwnershipFlow

/-- A frame with its blocks renamed. -/
def Frame.rename (r : BlockId → BlockId) (frame : Frame) : Frame :=
  ⟨r frame.block, frame.pending.map r⟩

namespace Search

variable {next other : BlockId → List BlockId} {root block target b : BlockId} {s s' : Search}
  {pending : List BlockId} {rest : List Frame} {blocks blocks' targets : List BlockId}

theorem step_of_path_finish (hpath : s.path = ⟨block, []⟩ :: rest) :
    s.step next = { s with path := rest, finished := block :: s.finished } := by
  rw [step, hpath]

theorem step_of_path_look (hpath : s.path = ⟨block, target :: pending⟩ :: rest) :
    s.step next =
      if ((⟨block, pending⟩ :: rest : List Frame).map Frame.block).contains target then
        { s with
          path := ⟨block, pending⟩ :: rest
          retreating := (block, target) :: s.retreating }
      else if target ∈ s.visited then { s with path := ⟨block, pending⟩ :: rest }
      else
        { s with
          visited := s.visited.insert target
          path := ⟨target, next target⟩ :: ⟨block, pending⟩ :: rest } := by
  rw [step, hpath]

/-! ### Edges that agree -/

theorem Explored.root_mem_visited (h : Explored next root s) : root ∈ s.visited :=
  (h.mem_visited root).mpr (List.mem_of_mem_head? h.head)

section Agree

variable (hagree : ∀ b, Leads next root b → b ≠ root → other b = next b)

include hagree

theorem step_congr (h : Explored next root s) : s.step other = s.step next := by
  cases hpath : s.path with
  | nil => rw [step_of_path_nil other hpath, step_of_path_nil next hpath]
  | cons frame rest =>
    obtain ⟨block, pending⟩ := frame
    cases pending with
    | nil => rw [step_of_path_finish hpath, step_of_path_finish hpath]
    | cons target pending =>
      rw [step_of_path_look hpath, step_of_path_look hpath]
      by_cases hnew : target ∈ s.visited
      · rw [if_pos hnew, if_pos hnew]
      · have hleads : Leads next root target :=
          ⟨_, (h.walk _ _ hpath).snoc (h.mem_next hpath)⟩
        have hne : target ≠ root := fun heq ↦ hnew (heq ▸ h.root_mem_visited)
        rw [hagree target hleads hne]

theorem run_congr (h : Explored next root s) (steps : Nat) :
    s.run other steps = s.run next steps := by
  induction steps generalizing s with
  | zero => rfl
  | succ steps ih => rw [run, run, step_congr hagree h, ih h.step]

end Agree

/-- A search that is over after some number of steps is so after any other, in the same state. -/
theorem run_eq_of_over {first second : Nat} (hfirst : (s.run next first).path = [])
    (hsecond : (s.run next second).path = []) : s.run next first = s.run next second := by
  rcases Nat.le_total first second with hle | hle
  · obtain ⟨more, rfl⟩ := Nat.exists_eq_add_of_le hle
    rw [run_add, run_of_path_nil next hfirst]
  · obtain ⟨more, rfl⟩ := Nat.exists_eq_add_of_le hle
    rw [run_add, run_of_path_nil next hsecond]

/-- Full searches of graphs that agree where the root leads are the same. -/
theorem explore_congr (hclosed : ∀ b, ∀ v ∈ next b, v ∈ blocks)
    (hclosed' : ∀ b, ∀ v ∈ other b, v ∈ blocks')
    (hagree : ∀ b, Leads next root b → other b = next b) :
    explore other blocks' root (other root) = explore next blocks root (next root) := by
  have hroot : other root = next root := hagree root (.refl root)
  have hrun : explore other blocks' root (other root) =
      (start root (next root)).run next (budget other blocks' (next root)) := by
    rw [explore, hroot]
    exact run_congr (fun b hb _ ↦ hagree b hb) (explored_start next root) _
  have hover : (explore other blocks' root (other root)).path = [] := path_explore_eq_nil hclosed'
  rw [hrun] at hover ⊢
  exact run_eq_of_over hover (path_explore_eq_nil hclosed)

/-- A search whose root has targets of its own finds what the root leads to with these targets. -/
theorem mem_visited_explore_iff (hclosed : ∀ b, ∀ v ∈ next b, v ∈ blocks)
    (htargets : ∀ v ∈ targets, v ∈ blocks) : b ∈ (explore next blocks root targets).visited ↔
      Leads (Function.update next root targets) root b := by
  have hstart : Explored (Function.update next root targets) root (start root targets) := by
    have h := explored_start (Function.update next root targets) root
    rwa [Function.update_self] at h
  have hrun : explore next blocks root targets =
      (start root targets).run (Function.update next root targets) (budget next blocks targets) :=
    run_congr (fun x _ hne ↦ (Function.update_of_ne hne _ _).symm) hstart _
  -- The root has been met, so its targets are not counted among those of blocks still to be met.
  have hremaining : remaining (Function.update next root targets) blocks (start root targets) =
      remaining next blocks (start root targets) := by
    have hunmet : ∀ x ∈ blocks,
        (if x ∈ (start root targets).visited then 0
          else (Function.update next root targets x).length + 1) =
        if x ∈ (start root targets).visited then 0 else (next x).length + 1 := by
      intro x _
      by_cases hx : x = root
      · have hmet : x ∈ (start root targets).visited := hx ▸ hstart.root_mem_visited
        rw [if_pos hmet, if_pos hmet]
      · rw [Function.update_of_ne hx]
    rw [remaining, remaining, List.map_congr_left hunmet]
  have hover : (explore next blocks root targets).path = [] := by
    rw [hrun]
    refine path_run_eq_nil hstart (fun x v hv ↦ ?_)
      (hremaining.trans_le (remaining_start_le next blocks root targets))
    by_cases hx : x = root
    · rw [hx, Function.update_self] at hv
      exact htargets v hv
    · rw [Function.update_of_ne hx] at hv
      exact hclosed x v hv
  rw [hrun] at hover ⊢
  exact (hstart.run _).mem_visited_iff hover

/-! ### Edges that are renamed -/

/-- A search stands in the state of another, with the blocks renamed. -/
structure Mirrors (r : BlockId → BlockId) (blocks : List BlockId) (s s' : Search) : Prop where
  visited : ∀ b ∈ blocks, r b ∈ s'.visited ↔ b ∈ s.visited
  path : s'.path = s.path.map (Frame.rename r)
  finished : s'.finished = s.finished.map r
  retreating : s'.retreating = s.retreating.map (Prod.map r r)

section Rename

variable {r : BlockId → BlockId} (himage : EdgeImage r blocks next other) (hroot : root ∈ blocks)

include himage

theorem contains_map {l : List BlockId} (hl : ∀ b ∈ l, b ∈ blocks) (ht : target ∈ blocks) :
    (l.map r).contains (r target) = l.contains target := by
  rw [Bool.eq_iff_iff, List.contains_iff_mem, List.contains_iff_mem, himage.mem_map_iff hl ht]

include hroot

theorem mirrors_start :
    Mirrors r blocks (start root targets) (start (r root) (targets.map r)) where
  visited b hb := by
    rw [start, start, Std.ExtTreeSet.singleton_eq_insert, Std.ExtTreeSet.singleton_eq_insert,
      mem_set_insert, mem_set_insert]
    have hempty : ∀ x : BlockId, x ∉ (∅ : BlockSet) := fun _ ↦ Std.ExtTreeSet.not_mem_empty
    rw [or_iff_left (hempty _), or_iff_left (hempty _)]
    exact ⟨himage.inj b hb root hroot, congrArg r⟩
  path := rfl
  finished := rfl
  retreating := rfl

/-- Searches in corresponding states take corresponding steps. -/
theorem Mirrors.step (hm : Mirrors r blocks s s') (h : Explored next root s) :
    Mirrors r blocks (s.step next) (s'.step other) := by
  have hin : ∀ b ∈ s.order, b ∈ blocks := fun b hb ↦ himage.mem_of_leads hroot (h.leads hb)
  cases hpath : s.path with
  | nil =>
    have hpath' : s'.path = [] := by rw [hm.path, hpath]; rfl
    rw [step_of_path_nil next hpath, step_of_path_nil other hpath']
    exact hm
  | cons frame rest =>
    obtain ⟨block, pending⟩ := frame
    have hframes : ∀ b ∈ block :: rest.map Frame.block, b ∈ blocks := fun b hb ↦
      hin b (List.mem_append_left _ (List.mem_reverse.mpr (by rwa [hpath])))
    have hpath' : s'.path = ⟨r block, pending.map r⟩ :: rest.map (Frame.rename r) := by
      rw [hm.path, hpath]
      rfl
    cases pending with
    | nil =>
      rw [step_of_path_finish hpath, step_of_path_finish hpath']
      exact ⟨hm.visited, rfl, congrArg (r block :: ·) hm.finished, hm.retreating⟩
    | cons target pending =>
      have htarget : target ∈ blocks :=
        himage.closed block (hframes block List.mem_cons_self) target (h.mem_next hpath)
      have hon : ((⟨r block, pending.map r⟩ :: rest.map (Frame.rename r) : List Frame).map
          Frame.block).contains (r target) =
          ((⟨block, pending⟩ :: rest : List Frame).map Frame.block).contains target := by
        rw [List.map_cons, List.map_cons, List.map_map, ← contains_map himage hframes htarget,
          List.map_cons, List.map_map]
        rfl
      have hmet : r target ∈ s'.visited ↔ target ∈ s.visited := hm.visited target htarget
      rw [step_of_path_look hpath, step_of_path_look hpath', hon]
      simp only [hmet]
      split
      · exact ⟨hm.visited, rfl, hm.finished, congrArg ((r block, r target) :: ·) hm.retreating⟩
      · split
        · exact ⟨hm.visited, rfl, hm.finished, hm.retreating⟩
        · refine ⟨fun b hb ↦ ?_, ?_, hm.finished, hm.retreating⟩
          · rw [mem_set_insert, mem_set_insert, hm.visited b hb]
            exact or_congr_left ⟨himage.inj b hb target htarget, congrArg r⟩
          · rw [himage.next_eq target htarget]
            rfl

theorem Mirrors.run (hm : Mirrors r blocks s s') (h : Explored next root s) (steps : Nat) :
    Mirrors r blocks (s.run next steps) (s'.run other steps) := by
  induction steps generalizing s s' with
  | zero => exact hm
  | succ steps ih => exact ih (hm.step himage hroot h) h.step

/-- Full searches of a graph and of a renamed graph end in corresponding states. -/
theorem mirrors_explore {all all' : List BlockId} (hall : ∀ b, ∀ v ∈ next b, v ∈ all)
    (hall' : ∀ b, ∀ v ∈ other b, v ∈ all') :
    Mirrors r blocks (explore next all root (next root))
      (explore other all' (r root) (other (r root))) := by
  have hover : (explore next all root (next root)).path = [] := path_explore_eq_nil hall
  have hover' : (explore other all' (r root) (other (r root))).path = [] :=
    path_explore_eq_nil hall'
  have hm : Mirrors r blocks (explore next all root (next root))
      ((start (r root) ((next root).map r)).run other (budget next all (next root))) :=
    (mirrors_start himage hroot).run himage hroot (explored_start next root) _
  have hsame : explore other all' (r root) (other (r root)) =
      (start (r root) ((next root).map r)).run other (budget next all (next root)) := by
    have hpath := hm.path
    rw [hover] at hpath
    rw [explore, himage.next_eq root hroot] at hover' ⊢
    exact run_eq_of_over hover' hpath
  rw [hsame]
  exact hm

end Rename

end Search

end OwnershipFlow
