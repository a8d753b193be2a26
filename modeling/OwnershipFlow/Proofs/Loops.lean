import Mathlib.Data.List.MinMax
import OwnershipFlow.FlowGraph.Loops
import OwnershipFlow.Proofs.FlowGraph

/-!
# Loops and reducibility

The loop headers of a flow graph are the blocks that dominate the source of an edge to them
(`mem_headers_iff`): such an edge retreats in every depth-first search, since a dominator lies
before what it dominates (`idxOf_le_of_dominates`). As some walk to a reachable block rises in the
order all the way (`exists_rising_walk`), the dominators of a block lie on one line
(`dominates_total`).

A graph is reducible exactly if every closed walk meets a block that dominates the whole walk
(`reducible_iff`). In one direction this block is the one that comes first in reverse postorder:
every edge of the walk into it retreats, and between two visits to it the walk cannot be entered
from outside. In the other direction a retreating edge closes a walk along the search path, and
among the blocks of that walk only the target of the edge can dominate the target.
-/

set_option autoImplicit false
set_option relaxedAutoImplicit false

namespace OwnershipFlow.FlowGraph

variable {g : FlowGraph} {next : BlockId → List BlockId} {a b u v entry header : BlockId}

namespace Describes

/-- Some walk to a reachable block goes forward in reverse postorder all the way. -/
theorem exists_rising_walk (h : g.Describes next entry) (hb : b ∈ g.rpo) :
    ∃ left, Walk next entry left b ∧
      (left ++ [b]).Pairwise fun x y ↦ g.rpo.idxOf x < g.rpo.idxOf y := by
  induction hn : g.rpo.idxOf b using Nat.strong_induction_on generalizing b with
  | _ n ih =>
    by_cases hentry : b = entry
    · exact ⟨[], hentry ▸ .nil b, List.pairwise_singleton _ _⟩
    · obtain ⟨u, hu, hedge, hlt⟩ := h.before b hb hentry
      obtain ⟨left, hwalk, hrising⟩ := ih _ (hn ▸ hlt) hu rfl
      refine ⟨left ++ [u], hwalk.snoc hedge,
        List.pairwise_append.mpr ⟨hrising, List.pairwise_singleton _ _, fun x hx y hy ↦ ?_⟩⟩
      rw [List.mem_singleton.mp hy]
      rcases List.mem_append.mp hx with hx | hx
      · exact ((List.pairwise_append.mp hrising).2.2 x hx u List.mem_cons_self).trans hlt
      · rw [List.mem_singleton.mp hx]
        exact hlt

/-- Some walk to a reachable block meets only blocks before it on the way. -/
theorem exists_forward_walk (h : g.Describes next entry) (hb : b ∈ g.rpo) :
    ∃ left, Walk next entry left b ∧ ∀ x ∈ left, g.rpo.idxOf x < g.rpo.idxOf b := by
  obtain ⟨left, hwalk, hrising⟩ := h.exists_rising_walk hb
  exact ⟨left, hwalk, fun x hx ↦ (List.pairwise_append.mp hrising).2.2 x hx b List.mem_cons_self⟩

/-- From a dominator some walk leads to what it dominates without going back behind it. -/
theorem exists_walk_behind (h : g.Describes next entry) (hb : Leads next entry b)
    (hdom : Dominates next entry a b) :
    ∃ left, Walk next a left b ∧ ∀ x ∈ left, g.rpo.idxOf a ≤ g.rpo.idxOf x := by
  obtain ⟨left, hwalk, hrising⟩ := h.exists_rising_walk ((h.mem_rpo b).mpr hb)
  rcases hdom left hwalk with ha | rfl
  · obtain ⟨first, second, rfl⟩ := List.mem_iff_append.mp ha
    have hafter := (List.pairwise_append.mp (List.pairwise_append.mp hrising).1).2.1
    refine ⟨a :: second, hwalk.split.2, fun x hx ↦ ?_⟩
    rcases List.mem_cons.mp hx with rfl | hx
    · exact Nat.le_refl _
    · exact ((List.pairwise_cons.mp hafter).1 x hx).le
  · exact ⟨[], .nil a, fun x hx ↦ absurd hx List.not_mem_nil⟩

/-- A dominator lies before what it dominates. -/
theorem idxOf_le_of_dominates (h : g.Describes next entry) (hb : Leads next entry b)
    (hdom : Dominates next entry a b) : g.rpo.idxOf a ≤ g.rpo.idxOf b := by
  obtain ⟨left, hwalk, hbefore⟩ := h.exists_forward_walk ((h.mem_rpo b).mpr hb)
  rcases hdom left hwalk with ha | rfl
  · exact (hbefore a ha).le
  · exact Nat.le_refl _

/-- Of two dominators of a block, the one that lies before the other dominates it. -/
theorem dominates_of_idxOf_le (h : g.Describes next entry) (hu : Leads next entry u)
    (ha : Dominates next entry a u) (hb : Dominates next entry b u)
    (hle : g.rpo.idxOf a ≤ g.rpo.idxOf b) : Dominates next entry a b := by
  have heq : g.rpo.idxOf b ≤ g.rpo.idxOf a → a = b := fun hge ↦
    (List.idxOf_inj ((h.mem_rpo a).mpr (ha.leads hu))).mp (Nat.le_antisymm hle hge)
  intro outer houter
  obtain ⟨inner, hinner, hbehind⟩ := h.exists_walk_behind hu hb
  rcases ha _ (houter.append hinner) with hmem | rfl
  · exact (List.mem_append.mp hmem).imp_right fun hmem ↦ heq (hbehind a hmem)
  · exact Or.inr (heq (h.idxOf_le_of_dominates hu hb))

/-- The dominators of a block lie on one line. -/
theorem dominates_total (h : g.Describes next entry) (hu : Leads next entry u)
    (ha : Dominates next entry a u) (hb : Dominates next entry b u) :
    Dominates next entry a b ∨ Dominates next entry b a :=
  (Nat.le_total (g.rpo.idxOf a) (g.rpo.idxOf b)).imp (h.dominates_of_idxOf_le hu ha hb)
    (h.dominates_of_idxOf_le hu hb ha)

theorem isBackEdge_iff (h : g.Describes next entry) (hu : Leads next entry u) :
    g.isBackEdge (u, v) = true ↔ Dominates next entry v u :=
  h.dominates_iff v u hu

theorem mem_backEdges_iff (h : g.Describes next entry) :
    (u, v) ∈ g.backEdges ↔ Leads next entry u ∧ v ∈ next u ∧ Dominates next entry v u := by
  rw [backEdges, List.mem_filter, h.mem_retreating]
  constructor
  · rintro ⟨⟨hu, hedge, -⟩, hback⟩
    exact ⟨hu, hedge, (h.isBackEdge_iff hu).mp hback⟩
  · rintro ⟨hu, hedge, hdom⟩
    exact ⟨⟨hu, hedge, h.idxOf_le_of_dominates hu hdom⟩, (h.isBackEdge_iff hu).mpr hdom⟩

/-- The headers are the blocks that dominate the source of an edge to them. -/
theorem mem_headers_iff (h : g.Describes next entry) :
    header ∈ g.loops.headers ↔ IsHeader next entry header := by
  rw [LoopForest.headers, Std.ExtTreeMap.mem_keys, loops, mem_map_ofList, List.map_map,
    List.mem_map]
  constructor
  · rintro ⟨⟨u, v⟩, hback, rfl⟩
    exact ⟨u, h.mem_backEdges_iff.mp hback⟩
  · rintro ⟨u, hback⟩
    exact ⟨(u, header), h.mem_backEdges_iff.mpr hback, rfl⟩

theorem reducible_eq_true_iff (h : g.Describes next entry) : g.loops.reducible = true ↔
    ∀ u v, (u, v) ∈ g.retreating → Dominates next entry v u := by
  rw [loops, List.all_eq_true]
  constructor
  · intro hall u v huv
    exact (h.isBackEdge_iff ((h.mem_retreating u v).mp huv).1).mp (hall _ huv)
  · rintro hall ⟨u, v⟩ huv
    exact (h.isBackEdge_iff ((h.mem_retreating u v).mp huv).1).mpr (hall u v huv)

/-- If all retreating edges are back edges, then the first block of a closed walk in reverse
postorder dominates the whole walk. -/
theorem dominates_closed_walk (h : g.Describes next entry)
    (hback : ∀ u v, (u, v) ∈ g.retreating → Dominates next entry v u) {left : List BlockId}
    (ha : Leads next entry a) (hwalk : Walk next a left a) (hin : header ∈ left)
    (hfirst : ∀ x ∈ left, g.rpo.idxOf header ≤ g.rpo.idxOf x) (hb : b ∈ left) :
    Dominates next entry header b := by
  intro outer houter
  refine or_iff_not_imp_right.mpr fun hne ↦ ?_
  -- Go round from `b` to the next visit to the header.
  obtain ⟨before, after, rfl⟩ := List.mem_iff_append.mp hb
  have hround : Walk next b (b :: after ++ before) b := hwalk.rotate
  have hsub : ∀ x ∈ b :: after ++ before, x ∈ before ++ b :: after := by
    intro x hx
    rw [List.mem_append] at hx ⊢
    exact hx.symm
  have hround_in : header ∈ b :: after ++ before := by
    rw [List.mem_append] at hin ⊢
    exact hin.symm
  obtain ⟨way, rest, hway, hnot⟩ := List.eq_append_cons_of_mem hround_in
  rw [hway] at hround
  have hreach := hround.split.1
  rcases List.eq_nil_or_concat way with rfl | ⟨inner, u, hlast⟩
  · cases hreach
    exact absurd rfl hne
  · rw [List.concat_eq_append] at hlast
    subst hlast
    obtain ⟨hinner, hedge⟩ := hreach.of_snoc
    have hu : u ∈ before ++ b :: after := hsub u (by rw [hway]; simp)
    have hlead : Leads next entry u := ha.trans (hwalk.leads_of_mem hu)
    have hretreat := (h.mem_retreating u header).mpr ⟨hlead, hedge, hfirst u hu⟩
    rcases hback u header hretreat _ (houter.append hinner) with hmem | rfl
    · rcases List.mem_append.mp hmem with hmem | hmem
      · exact hmem
      · exact absurd (List.mem_append_left _ hmem) hnot
    · exact absurd (List.mem_append_right _ List.mem_cons_self) hnot

/-- A graph is reducible exactly if every closed walk has a header. -/
theorem reducible_iff (h : g.Describes next entry) :
    g.loops.reducible = true ↔ HeadedLoops next entry := by
  rw [h.reducible_eq_true_iff]
  constructor
  · intro hback start left hstart hwalk hne
    obtain ⟨header, hheader⟩ := Option.ne_none_iff_exists'.mp
      (mt List.argmin_eq_none.mp hne : left.argmin g.rpo.idxOf ≠ none)
    have hin := List.argmin_mem hheader
    exact ⟨header, hin, fun b hb ↦ h.dominates_closed_walk hback hstart hwalk hin
      (fun x hx ↦ List.le_of_mem_argmin hx hheader) hb⟩
  · intro hheaded u v huv
    obtain ⟨-, hedge, -⟩ := (h.mem_retreating u v).mp huv
    obtain ⟨above, below, habove, hbelow, hnodup⟩ := h.retreating_walk u v huv
    obtain ⟨header, hin, hdom⟩ := hheaded v (below ++ [u]) ⟨above, habove⟩ (hbelow.snoc hedge)
      (List.append_ne_nil_of_right_ne_nil _ (List.cons_ne_nil _ _))
    have hv : v ∈ below ++ [u] := by
      cases hbelow with
      | nil => exact List.mem_append_right _ List.mem_cons_self
      | cons _ _ => exact List.mem_append_left _ List.mem_cons_self
    have hheader : header = v := by
      refine (hdom v hv above habove).resolve_left fun hmem ↦ ?_
      rw [List.append_assoc] at hnodup
      exact (List.nodup_append.mp hnodup).2.2 header hmem header hin rfl
    exact hheader ▸ hdom u (List.mem_append_right _ List.mem_cons_self)

end Describes

end OwnershipFlow.FlowGraph
