import OwnershipFlow.Proofs.FlowGraph
import OwnershipFlow.Proofs.Reachability

/-!
# Dominators of an implementation

The dominator test of a flow graph agrees with walks on reachable blocks and knows of no other
dominance, and the immediate dominators are the nearest strict dominators of all reachable blocks
but the entry (`dominates_iff_walks_meet`). Neither depends on how many passes the iteration took,
nor on edges into the entry, repeated or missing targets, or predecessors that cannot be reached.

Since a reachable block has only one immediate dominator, the map of immediate dominators is
determined by dominance (`getElem?_idom_iff`). Graphs whose edges agree where the entry leads have
the same one (`idom_eq_of_agree`).
-/

set_option autoImplicit false
set_option relaxedAutoImplicit false

namespace OwnershipFlow.FlowGraph

variable {g g' : FlowGraph} {next other : BlockId → List BlockId} {a b d entry : BlockId}

namespace Describes

theorem getElem?_idom_iff (h : g.Describes next entry) :
    g.idom[b]? = some d ↔ Leads next entry b ∧ ImmediatelyDominates next entry d b := by
  constructor
  · intro hd
    have hmem : b ∈ g.idom := Std.ExtTreeMap.mem_iff_isSome_getElem?.mpr (by rw [hd]; rfl)
    exact ⟨((h.mem_idom b).mp hmem).1, h.idom b d hd⟩
  · rintro ⟨hb, hd⟩
    have hne : b ≠ entry := by
      rintro rfl
      exact hd.ne hd.dominates.eq_entry
    obtain ⟨c, hc⟩ := Option.isSome_iff_exists.mp
      (Std.ExtTreeMap.mem_iff_isSome_getElem?.mp ((h.mem_idom b).mpr ⟨hb, hne⟩))
    rw [hc, hd.unique (h.idom b c hc) hb]

theorem idom_eq_of_agree (h : g.Describes next entry) (h' : g'.Describes other entry)
    (hagree : ∀ b, Leads next entry b → ∀ v, v ∈ other b ↔ v ∈ next b) : g'.idom = g.idom := by
  refine Std.ExtTreeMap.ext_getElem? fun {b} ↦ Option.ext fun d ↦ ?_
  rw [h'.getElem?_idom_iff, h.getElem?_idom_iff, leads_iff_of_agree hagree,
    immediatelyDominates_iff_of_agree hagree]

end Describes

/-- A reachable block is found to be dominated by the blocks that every walk to it meets, any other
block by itself alone. Exactly the reachable blocks but the entry have an immediate dominator: a
strict dominator that all other strict dominators dominate. -/
theorem dominates_iff_walks_meet (imp : Implementation) (hids : imp.blockIds.Nodup)
    (hblocks : imp.blocks ≠ []) :
    ∃ g, FlowGraph.of? imp = some g ∧
      (∀ a b, imp.Reachable b → (g.dominates a b = true ↔
        ∀ entry, imp.entry? = some entry →
          ∀ left, Walk imp.targetsOf entry left b → a ∈ left ∨ a = b)) ∧
      (∀ a b, ¬ imp.Reachable b → (g.dominates a b = true ↔ a = b)) ∧
      (∀ b, b ∈ g.idom ↔ imp.Reachable b ∧ imp.entry? ≠ some b) ∧
      ∀ b d, g.idom[b]? = some d →
        d ≠ b ∧ imp.Dominates d b ∧ ∀ c, c ≠ b → imp.Dominates c b → imp.Dominates c d := by
  obtain ⟨entry, hentry⟩ :=
    Option.ne_none_iff_exists'.mp (mt Implementation.entry?_eq_none_iff.mp hblocks)
  obtain ⟨g, hg⟩ := exists_of? hentry
  have hdescribes := describes_of? hids hg hentry
  simp only [Implementation.reachable_iff hentry, Implementation.dominates_iff hentry]
  refine ⟨g, hg, fun a b hb ↦ ?_, hdescribes.dominates_unreachable, fun b ↦ ?_, fun b d hd ↦ ?_⟩
  · rw [hdescribes.dominates_iff a b hb, ← Implementation.dominates_iff hentry]
    exact Iff.rfl
  · rw [hdescribes.mem_idom, hentry, ne_eq, ne_eq, Option.some.injEq, eq_comm (a := b)]
  · have himmediate := hdescribes.idom b d hd
    exact ⟨himmediate.ne, himmediate.dominates, himmediate.nearest⟩

/-- Control comes back to the entry, a target is named twice and one is missing, and a block that
cannot be reached leads to reachable ones. -/
def recurring : Implementation where
  id := ⟨0⟩
  procedure := ⟨0⟩
  name := "recurring"
  ins := []
  outs := []
  locals := []
  blocks :=
    [⟨⟨3⟩, "entry", [], .goto [⟨1⟩, ⟨1⟩, ⟨9⟩, ⟨2⟩], [], .zero⟩,
      ⟨⟨1⟩, "left", [], .goto [⟨0⟩, ⟨3⟩], [], .zero⟩,
      ⟨⟨2⟩, "right", [], .goto [⟨0⟩], [], .zero⟩,
      ⟨⟨0⟩, "joined", [], .goto [⟨5⟩], [], .zero⟩,
      ⟨⟨4⟩, "dead", [], .goto [⟨1⟩, ⟨0⟩, ⟨5⟩], [], .zero⟩,
      ⟨⟨5⟩, "last", [], .ret, [], .zero⟩]
  span := .zero

theorem dominates_iff_walks_meet_recurring : recurring.blockIds.Nodup ∧ recurring.blocks ≠ [] ∧
    ∃ g, FlowGraph.of? recurring = some g ∧ recurring.Reachable ⟨5⟩ ∧
      (∀ entry, recurring.entry? = some entry →
        ∀ left, Walk recurring.targetsOf entry left ⟨5⟩ → ⟨0⟩ ∈ left ∨ (⟨0⟩ : BlockId) = ⟨5⟩) ∧
      ¬ recurring.Reachable ⟨4⟩ ∧ g.dominates ⟨3⟩ ⟨4⟩ = false ∧
      g.idom[(⟨5⟩ : BlockId)]? = some ⟨0⟩ ∧ recurring.Dominates ⟨0⟩ ⟨5⟩ ∧
      recurring.Dominates ⟨3⟩ ⟨0⟩ := by
  have hdominates : (FlowGraph.of? recurring).map (·.dominates ⟨0⟩ ⟨5⟩) = some true := by
    decide +kernel
  have hidom : (FlowGraph.of? recurring).map (·.idom[(⟨5⟩ : BlockId)]?) = some (some ⟨0⟩) := by
    decide +kernel
  have hlast : recurring.Reachable ⟨5⟩ := by decide +kernel
  have hdead : ¬ recurring.Reachable ⟨4⟩ := by decide +kernel
  have hentry : recurring.Dominates ⟨3⟩ ⟨5⟩ := by decide +kernel
  obtain ⟨g, hg, hreachable, hunreachable, -, hnearest⟩ :=
    dominates_iff_walks_meet recurring (by decide) (List.cons_ne_nil _ _)
  rw [hg, Option.map_some, Option.some.injEq] at hdominates hidom
  obtain ⟨-, hdominated, hall⟩ := hnearest ⟨5⟩ ⟨0⟩ hidom
  refine ⟨by decide, List.cons_ne_nil _ _, g, hg, hlast, (hreachable ⟨0⟩ ⟨5⟩ hlast).mp hdominates,
    hdead, ?_, hidom, hdominated, hall ⟨3⟩ (by decide) hentry⟩
  rw [← Bool.not_eq_true, hunreachable ⟨3⟩ ⟨4⟩ hdead]
  decide

end OwnershipFlow.FlowGraph
