import OwnershipFlow.Proofs.FlowGraph
import OwnershipFlow.Proofs.Reachability

/-!
# The course of the iteration for immediate dominators

The passes for immediate dominators are followed from moment to moment: some of them are over, and
the next one has revised some blocks of the reverse postorder (`FlowGraph.parentsAt`). At every
moment the parents form a tree that rises in the order, and a block that has a parent is only ever
given an earlier one (`idxOf_lt_of_revise`), so the passes come to stand still.

Whenever a block is revised, the nearest common ancestor is asked for of its predecessors, one after
the other, with what has been found for those before. Both blocks are in the tree
(`mem_of_common?`), so the two fingers of the climb (`Climbs`) stay in the tree and meet
(`Climbs.mem`, `climbs_of_climb`): a climb that gets stuck does not occur.

When the passes are over, the way up from any block ends at a block without an immediate dominator
(`exists_last_chain`), which for reachable blocks is the entry.

None of this asks for distinct identifiers. Where they are repeated, a predecessor may be recorded
without an edge, and all that matters is that every block but the entry has one before it.
-/

set_option autoImplicit false
set_option relaxedAutoImplicit false

namespace OwnershipFlow

namespace Dominators

variable {order revised rest blocks : List BlockId} {prior : BlockId → List BlockId}
  {rank : BlockId → Nat} {parents : Parents} {entry a b m p q x y : BlockId}

/-! ### Climbs -/

/-- The fingers of a climb from two blocks come to stand at two blocks: as long as one of them has
the higher rank, it is moved to its parent. -/
inductive Climbs (rank : BlockId → Nat) (parents : Parents) (a b : BlockId) :
    BlockId → BlockId → Prop
  | start : Climbs rank parents a b a b
  | left {x y p : BlockId} (h : Climbs rank parents a b x y) (higher : rank y < rank x)
      (parent : parents[x]? = some p) : Climbs rank parents a b p y
  | right {x y p : BlockId} (h : Climbs rank parents a b x y) (higher : rank x < rank y)
      (parent : parents[y]? = some p) : Climbs rank parents a b x p

namespace Climbs

theorem trans (h : Climbs rank parents a b x y) (h' : Climbs rank parents x y p q) :
    Climbs rank parents a b p q := by
  induction h' with
  | start => exact h
  | left _ higher parent ih => exact .left ih higher parent
  | right _ higher parent ih => exact .right ih higher parent

/-- A climb from blocks of the tree stays in the tree. -/
theorem mem (htree : IsTree order entry parents) (ha : a ∈ parents) (hb : b ∈ parents)
    (h : Climbs rank parents a b x y) : x ∈ parents ∧ y ∈ parents := by
  induction h with
  | start => exact ⟨ha, hb⟩
  | left _ _ parent ih => exact ⟨(Ancestor.up parent (.refl _)).mem htree ih.1, ih.2⟩
  | right _ _ parent ih => exact ⟨ih.1, (Ancestor.up parent (.refl _)).mem htree ih.2⟩

end Climbs

/-- The fingers of a climb that ends with a meeting have come to stand at the same block. -/
theorem climbs_of_climb {fuel : Nat} (h : climb rank parents fuel a b = .met m) :
    Climbs rank parents a b m m := by
  induction fuel generalizing a b with
  | zero =>
    rw [climb] at h
    split_ifs at h with hab
    cases h
    exact hab ▸ .start
  | succ fuel ih =>
    rw [climb] at h
    split_ifs at h with hab hleft hright
    · cases h
      exact hab ▸ .start
    · cases hp : parents[a]? with
      | none => simp [hp] at h
      | some p =>
        simp only [hp] at h
        split_ifs at h
        exact (Climbs.left .start hleft hp).trans (ih h)
    · cases hp : parents[b]? with
      | none => simp [hp] at h
      | some p =>
        simp only [hp] at h
        split_ifs at h
        exact (Climbs.right .start hright hp).trans (ih h)

/-- Blocks without a parent have no common ancestor. -/
theorem common?_eq_none (h : ∀ x ∈ blocks, x ∉ parents) : common? rank parents blocks = none := by
  rw [common?]
  induction blocks with
  | nil => rfl
  | cons x rest ih =>
    rw [List.foldl_cons, if_neg (h x List.mem_cons_self)]
    exact ih fun y hy ↦ h y (List.mem_cons_of_mem _ hy)

section Tree

variable (hhead : order.head? = some entry) (htree : IsTree order entry parents)

include hhead htree

/-- The common ancestor of blocks is in the tree. -/
theorem mem_of_common? (h : common? order.idxOf parents blocks = some m) : m ∈ parents := by
  by_cases hsome : ∃ x ∈ blocks, x ∈ parents
  · obtain ⟨x, hin, hx⟩ := hsome
    obtain ⟨m', hm', hcommon⟩ := common?_spec hhead htree hin hx
    obtain rfl := Option.some.inj (h.symm.trans hm')
    exact ((hcommon m).mp (.refl m) x hin hx).mem htree hx
  · push Not at hsome
    rw [common?_eq_none hsome] at h
    cases h

/-- Fingers on blocks of the tree meet, and stand on blocks of the order all the way. -/
theorem meet_met (ha : a ∈ parents) (hb : b ∈ parents) :
    (∃ m, meet order.idxOf parents a b = .met m ∧ Climbs order.idxOf parents a b m m) ∧
      ∀ x y, Climbs order.idxOf parents a b x y → x ∈ order ∧ y ∈ order := by
  refine ⟨?_, fun x y h ↦ ?_⟩
  · obtain ⟨m, hm, -⟩ := meet_spec hhead htree ha hb
    exact ⟨m, hm, climbs_of_climb hm⟩
  · obtain ⟨hx, hy⟩ := h.mem htree ha hb
    exact ⟨htree.mem_order x hx, htree.mem_order y hy⟩

end Tree

/-! ### Revisions -/

/-- A parent that is replaced is replaced by an earlier block. -/
theorem idxOf_lt_of_revise (hordered : Ordered order prior entry)
    (hsplit : order = revised ++ b :: rest) (h : Steady order prior entry revised parents)
    (hp : parents[x]? = some p) (hq : (revise order.idxOf prior entry parents b)[x]? = some q)
    (hne : p ≠ q) : order.idxOf q < order.idxOf p := by
  by_cases hentry : b = entry
  · rw [revise, if_pos hentry, hp] at hq
    exact absurd (Option.some.inj hq) hne
  · obtain ⟨m, hrevise, hm, -, -, hup⟩ := revise_spec hordered hsplit h hentry
    rw [hrevise, getElem?_map_insert] at hq
    split_ifs at hq with hbx
    · subst hbx
      obtain rfl := Option.some.inj hq
      refine Nat.lt_of_le_of_ne ((hup p hp).idxOf_le h.tree) fun heq ↦ hne ?_
      exact ((List.idxOf_inj (h.tree.mem_order m hm)).mp heq).symm
    · rw [hp] at hq
      exact absurd (Option.some.inj hq) hne

/-! ### The way up -/

theorem isChain_chain (idom : Std.ExtTreeMap BlockId BlockId) (fuel : Nat) (b : BlockId) :
    (b :: chain idom fuel b).IsChain fun x y ↦ idom[x]? = some y := by
  induction fuel generalizing b with
  | zero => exact .singleton b
  | succ fuel ih =>
    rw [chain]
    cases hp : idom[b]? with
    | none => exact .singleton b
    | some p => exact .cons_cons hp (ih p)

/-- With enough fuel the way up from a block of the tree ends at the entry. -/
theorem getLast?_chain (htree : IsTree order entry parents) {fuel : Nat} (hb : b ∈ parents)
    (hfuel : order.idxOf b ≤ fuel) (hhead : order.head? = some entry) :
    (b :: chain (parents.erase entry) fuel b).getLast? = some entry := by
  induction fuel generalizing b with
  | zero =>
    rw [← (List.idxOf_inj (htree.mem_order b hb)).mp
      ((Nat.le_zero.mp hfuel).trans (idxOf_entry hhead).symm)]
    rfl
  | succ fuel ih =>
    rw [chain, getElem?_map_erase]
    by_cases hentry : b = entry
    · rw [if_pos hentry.symm, hentry]
      rfl
    · obtain ⟨p, hp⟩ := Option.isSome_iff_exists.mp (Std.ExtTreeMap.mem_iff_isSome_getElem?.mp hb)
      obtain ⟨hmem, hlt⟩ := htree.rises b p hp hentry
      rw [if_neg fun heq ↦ hentry heq.symm, hp, Option.elim_some, List.getLast?_cons_cons]
      exact ih hmem (by omega)

/-- The way up from any block ends at a block without a parent. -/
theorem exists_last_chain (hordered : Ordered order prior entry)
    (htree : IsTree order entry parents) (hall : ∀ x ∈ order, x ∈ parents) (b : BlockId) :
    ∃ last, (b :: chain (parents.erase entry) (parents.erase entry).size b).getLast? = some last ∧
      (parents.erase entry)[last]? = none := by
  by_cases hb : b ∈ parents
  · refine ⟨entry, getLast?_chain htree hb ?_ hordered.head, ?_⟩
    · exact idxOf_le_size hordered.head hordered.nodup hall (htree.mem_order b hb)
    · rw [getElem?_map_erase, if_pos rfl]
  · have hnone : (parents.erase entry)[b]? = none :=
      Std.ExtTreeMap.getElem?_eq_none fun h ↦ hb (mem_map_erase.mp h).2
    refine ⟨b, ?_, hnone⟩
    cases (parents.erase entry).size with
    | zero => rfl
    | succ fuel =>
      rw [chain, hnone]
      rfl

end Dominators

namespace FlowGraph

open Dominators

/-- The parents when some passes over a flow graph are over and the next one has revised some
blocks. -/
def parentsAt (g : FlowGraph) (passes : Nat) (revised : List BlockId) : Parents :=
  stage (revise g.rpo.idxOf g.prior g.entry) g.rpo ((∅ : Parents).insert g.entry g.entry) passes
    revised

/-- At every moment of the iteration each parent lies before its child in reverse postorder, and a
parent is only replaced by an earlier block. Each time a common ancestor is asked for, the fingers
meet, without leaving the order. Some pass changes nothing, and then every reachable block but the
entry has an immediate dominator, so that the way up from any block comes to an end. -/
theorem dominator_passes_settle (imp : Implementation) (hblocks : imp.blocks ≠ []) :
    ∃ g, FlowGraph.of? imp = some g ∧
      (∀ passes revised rest, g.rpo = revised ++ rest → ∀ b p : BlockId, b ≠ g.entry →
        (g.parentsAt passes revised)[b]? = some p →
          b ∈ g.rpo ∧ p ∈ g.rpo ∧ g.rpo.idxOf p < g.rpo.idxOf b) ∧
      (∀ passes revised b rest, g.rpo = revised ++ b :: rest →
        (∀ x p q : BlockId, (g.parentsAt passes revised)[x]? = some p →
          (g.parentsAt passes (revised ++ [b]))[x]? = some q → p ≠ q →
            g.rpo.idxOf q < g.rpo.idxOf p) ∧
        ∀ before u after current, g.prior b = before ++ u :: after →
          u ∈ g.parentsAt passes revised →
          common? g.rpo.idxOf (g.parentsAt passes revised) before = some current →
            (∃ m, meet g.rpo.idxOf (g.parentsAt passes revised) u current = .met m ∧
              Climbs g.rpo.idxOf (g.parentsAt passes revised) u current m m) ∧
            ∀ x y, Climbs g.rpo.idxOf (g.parentsAt passes revised) u current x y →
              x ∈ g.rpo ∧ y ∈ g.rpo) ∧
      (∃ passes, g.idom = (g.parentsAt passes []).erase g.entry ∧
        ∀ b ∈ g.rpo, revise g.rpo.idxOf g.prior g.entry (g.parentsAt passes []) b =
          g.parentsAt passes []) ∧
      (∀ b ∈ g.rpo, b ≠ g.entry → b ∈ g.idom) ∧
      ∀ b, ((b :: g.strictDominators b).IsChain fun x y ↦ g.idom[x]? = some y) ∧
        ∃ last, (b :: g.strictDominators b).getLast? = some last ∧ g.idom[last]? = none := by
  obtain ⟨entry, hentry⟩ := Implementation.exists_entry? hblocks
  obtain ⟨g, hg⟩ := exists_of? hentry
  have hordered := ordered_of? hg
  obtain ⟨parents, ⟨passes, hpasses⟩, himmediate, -, hsteady, hfixed⟩ :=
    exists_settled hordered (p := fun _ ↦ True) trivial fun _ _ _ _ _ _ _ ↦ trivial
  have hidom : g.idom = parents.erase g.entry := (idom_eq_immediate hg).trans himmediate
  refine ⟨g, hg, fun passes revised rest hsplit b p hne hp ↦ ?_,
    fun passes revised b rest hsplit ↦ ?_, ⟨passes, ?_, ?_⟩, fun b hb hne ↦ ?_, fun b ↦ ?_⟩
  · have htree : IsTree g.rpo g.entry (g.parentsAt passes revised) :=
      (steady_stage hordered hsplit).tree
    have hb : b ∈ g.parentsAt passes revised :=
      Std.ExtTreeMap.mem_iff_isSome_getElem?.mpr (by rw [hp]; rfl)
    obtain ⟨hmem, hlt⟩ := htree.rises b p hp hne
    exact ⟨htree.mem_order b hb, htree.mem_order p hmem, hlt⟩
  · have hnow : Steady g.rpo g.prior g.entry revised (g.parentsAt passes revised) :=
      steady_stage hordered hsplit
    refine ⟨fun x p q hp hq hne ↦ ?_, fun before u after current _ hu hcurrent ↦ ?_⟩
    · rw [parentsAt, stage_snoc] at hq
      exact idxOf_lt_of_revise hordered hsplit hnow hp hq hne
    · exact meet_met hordered.head hnow.tree hu (mem_of_common? hordered.head hnow.tree hcurrent)
  · rw [hidom, hpasses, parentsAt]
  · rw [parentsAt, ← hpasses]
    exact hfixed
  · rw [hidom, mem_map_erase]
    exact ⟨Ne.symm hne, hsteady.mem_revised b hb⟩
  · rw [strictDominators, hidom]
    exact ⟨isChain_chain _ _ b, exists_last_chain hordered hsteady.tree hsteady.mem_revised b⟩

/-- Two blocks share an identifier. The edges are those of the second one, but the first one makes
the identifier count among the predecessors of its target, which has been given a parent by then. -/
def shadowed : Implementation where
  id := ⟨0⟩
  procedure := ⟨0⟩
  name := "shadowed"
  ins := []
  outs := []
  locals := []
  blocks :=
    [⟨⟨0⟩, "entry", [], .goto [⟨1⟩, ⟨9⟩, ⟨3⟩], [], .zero⟩,
      ⟨⟨1⟩, "first", [], .goto [⟨2⟩], [], .zero⟩,
      ⟨⟨2⟩, "second", [], .goto [⟨3⟩], [], .zero⟩,
      ⟨⟨3⟩, "back", [], .goto [⟨2⟩], [], .zero⟩,
      ⟨⟨3⟩, "on", [], .goto [⟨4⟩], [], .zero⟩,
      ⟨⟨4⟩, "last", [], .ret, [], .zero⟩]
  span := .zero

theorem dominator_passes_settle_shadowed : shadowed.blocks ≠ [] ∧ ¬ shadowed.blockIds.Nodup ∧
    ∃ g, FlowGraph.of? shadowed = some g ∧ g.rpo = [⟨0⟩, ⟨1⟩] ++ ⟨2⟩ :: [⟨3⟩, ⟨4⟩] ∧
      g.prior ⟨2⟩ = [⟨1⟩] ++ ⟨3⟩ :: [] ∧ ⟨2⟩ ∉ g.next ⟨3⟩ ∧
      (g.parentsAt 1 [⟨0⟩, ⟨1⟩])[(⟨2⟩ : BlockId)]? = some ⟨1⟩ ∧
      (g.parentsAt 1 [⟨0⟩, ⟨1⟩, ⟨2⟩])[(⟨2⟩ : BlockId)]? = some ⟨0⟩ ∧
      g.rpo.idxOf ⟨0⟩ < g.rpo.idxOf ⟨1⟩ ∧
      (∃ m, meet g.rpo.idxOf (g.parentsAt 1 [⟨0⟩, ⟨1⟩]) ⟨3⟩ ⟨1⟩ = .met m) ∧ ⟨2⟩ ∈ g.idom := by
  have hgraph : (FlowGraph.of? shadowed).map (fun g ↦ (g.rpo, g.entry, g.prior ⟨2⟩, g.next ⟨3⟩)) =
      some ([⟨0⟩, ⟨1⟩] ++ ⟨2⟩ :: [⟨3⟩, ⟨4⟩], ⟨0⟩, [⟨1⟩] ++ ⟨3⟩ :: [], [⟨4⟩]) := by decide +kernel
  have hparents : (FlowGraph.of? shadowed).map (fun g ↦
      ((g.parentsAt 1 [⟨0⟩, ⟨1⟩])[(⟨2⟩ : BlockId)]?,
        (g.parentsAt 1 [⟨0⟩, ⟨1⟩, ⟨2⟩])[(⟨2⟩ : BlockId)]?)) = some (some ⟨1⟩, some ⟨0⟩) := by
    decide +kernel
  have hasked : (FlowGraph.of? shadowed).map (fun g ↦
      ((g.parentsAt 1 [⟨0⟩, ⟨1⟩]).contains ⟨3⟩,
        common? g.rpo.idxOf (g.parentsAt 1 [⟨0⟩, ⟨1⟩]) [⟨1⟩])) = some (true, some ⟨1⟩) := by
    decide +kernel
  obtain ⟨g, hg, -, hmoment, -, hidom, -⟩ :=
    dominator_passes_settle shadowed (List.cons_ne_nil _ _)
  rw [hg] at hgraph hparents hasked
  simp only [Option.map_some, Option.some.injEq, Prod.mk.injEq] at hgraph hparents hasked
  obtain ⟨hrpo, hentry, hprior, hnext⟩ := hgraph
  obtain ⟨hbefore, hafter⟩ := hparents
  obtain ⟨hmem, hcurrent⟩ := hasked
  obtain ⟨hmoves, hmeets⟩ := hmoment 1 [⟨0⟩, ⟨1⟩] ⟨2⟩ [⟨3⟩, ⟨4⟩] hrpo
  obtain ⟨⟨m, hm, -⟩, -⟩ := hmeets [⟨1⟩] ⟨3⟩ [] ⟨1⟩ hprior
    (Std.ExtTreeMap.contains_iff_mem.mp hmem) hcurrent
  exact ⟨List.cons_ne_nil _ _, by decide, g, hg, hrpo, hprior, hnext ▸ by decide, hbefore, hafter,
    hmoves ⟨2⟩ ⟨1⟩ ⟨0⟩ hbefore hafter (by decide), ⟨m, hm⟩,
    hidom ⟨2⟩ (by simp [hrpo]) (by rw [hentry]; decide)⟩

end FlowGraph

end OwnershipFlow
