import OwnershipFlow.Proofs.Tracked

/-!
# The greatest solution of the equations of availability

The passes of the analysis are followed from moment to moment: some of them are over, and the next
one has revised some blocks of the reverse postorder (`Availability.endsAt`). The start of the block
that is revised next has always been reached, because the entry is reached from outside and every
other block has a predecessor before it. Once a block has been reached, its set is only replaced by
strict subsets (`subset_and_ne_of_revise`), so the passes come to stand still.

What they leave solves the equations of availability (`Availability.Solves`): the set at the end of
a block is what its commands make of what all its predecessors hold. It is the greatest solution,
since at no moment does a set at the end of a block lack a variable that it has in a solution
(`Above`).

None of this asks for distinct identifiers. Where they are repeated, the commands of a block may be
those of another block than its edges, and its predecessors those of both.
-/

set_option autoImplicit false
set_option relaxedAutoImplicit false

namespace OwnershipFlow

variable {p : Program} {imp : Implementation} {g : FlowGraph} {held before after : VarSet}
  {b x : BlockId} {revised rest : List BlockId} {passes : Nat}

/-- A tracked variable is declared, local and of linear kind. -/
theorem Program.exists_var?_of_isTracked {v : VarId} (h : p.isTracked v) :
    ∃ d, p.var? v = some d ∧ d.isGlobal = false ∧ d.kind.isLinear = true := by
  rw [isTracked] at h
  cases hd : p.var? v with
  | none => simp [hd] at h
  | some d =>
    rw [hd, Option.any_some, Variable.isTracked, Bool.and_eq_true, Bool.not_eq_true'] at h
    exact ⟨d, rfl, h⟩

namespace Availability

variable {ends : Outs}

/-- What is held at the ends of blocks when some passes over a flow graph are over and the next one
has revised some blocks. -/
def endsAt (p : Program) (imp : Implementation) (g : FlowGraph) (passes : Nat)
    (revised : List BlockId) : Outs :=
  stage (revise p imp g) g.rpo ∅ passes revised

/-- A family of sets solves the equations of availability: the set of each block of the order is
what its commands make of what all its predecessors in the order have in their sets, the entry being
bound by what is held there from outside as well. -/
def Solves (p : Program) (imp : Implementation) (g : FlowGraph) (family : BlockId → VarSet) :
    Prop :=
  ∀ b ∈ g.rpo, ∃ held, family b = p.transferBlock imp b held ∧
    ∀ v, v ∈ held ↔ (b = g.entry → v ∈ p.heldAtEntry imp) ∧
      ∀ u ∈ g.prior b, u ∈ g.rpo → v ∈ family u

/-- The sets at the ends of blocks are those of blocks of the order, and lack nothing that they have
in any solution. -/
def Above (p : Program) (imp : Implementation) (g : FlowGraph) (ends : Outs) : Prop :=
  ∀ (b : BlockId) out, ends[b]? = some out →
    b ∈ g.rpo ∧ ∀ family, Solves p imp g family → ∀ v ∈ family b, v ∈ out

/-- Computing the end of a block anew loses nothing that is in a solution. -/
theorem Above.insert (h : Above p imp g ends) (hb : b ∈ g.rpo)
    (hheld : heldAtStart? g (p.heldAtEntry imp) ends b = some held) :
    Above p imp g (ends.insert b (p.transferBlock imp b held)) := by
  intro x out hout
  rcases eq_or_of_getElem?_map_insert hout with ⟨rfl, rfl⟩ | ⟨-, hout⟩
  · refine ⟨hb, fun family hsolves v hv ↦ ?_⟩
    obtain ⟨start, hfamily, hstart⟩ := hsolves x hb
    rw [hfamily] at hv
    refine Program.mem_transferBlock_mono (fun w hw ↦ ?_) hv
    obtain ⟨hentry, hprior⟩ := (hstart w).mp hw
    refine (mem_heldAtStart? hheld).mpr ⟨hentry, fun u hu out hout ↦ ?_⟩
    obtain ⟨hin, habove⟩ := h u out hout
    exact habove family hsolves w (hprior u hu hin)
  · exact h x out hout

section Moments

variable (hordered : Dominators.Ordered g.rpo g.prior g.entry)
  (hblocks : ∀ b ∈ g.rpo, ∃ block, imp.block? b = some block)

include hordered hblocks

theorem falling_endsAt (hsplit : g.rpo = revised ++ rest) :
    Falling p imp g revised (endsAt p imp g passes revised) :=
  stage_keeps (p := Falling p imp g)
    (fun _ _ _ _ hsplit h ↦ h.revise hordered hblocks hsplit)
    (fun _ h ↦ h.restart) falling_empty hsplit

/-- A set that is replaced is replaced by a strict subset. -/
theorem subset_and_ne_of_revise (hsplit : g.rpo = revised ++ b :: rest)
    (h : Falling p imp g revised ends) (hbefore : ends[x]? = some before)
    (hafter : (revise p imp g ends b)[x]? = some after) (hne : before ≠ after) :
    (∀ v ∈ after, v ∈ before) ∧ ∃ v ∈ before, v ∉ after := by
  obtain ⟨held, -, hrevise, hless⟩ := revise_spec hordered hblocks hsplit h
  rw [hrevise] at hafter
  rcases eq_or_of_getElem?_map_insert hafter with ⟨rfl, rfl⟩ | ⟨-, hafter⟩
  · have hsub := hless before hbefore
    refine ⟨hsub, ?_⟩
    by_contra hall
    push Not at hall
    exact hne (Std.ExtTreeSet.ext_mem fun v ↦ ⟨hall v, hsub v⟩)
  · exact absurd (Option.some.inj (hbefore.symm.trans hafter)) hne

/-- Where the passes stand still, no revision changes anything. -/
theorem revise_outs (hb : b ∈ g.rpo) : revise p imp g (outs p imp g) b = outs p imp g := by
  obtain ⟨-, hsettled⟩ := outs_spec (p := p) hordered hblocks (q := fun _ ↦ True) trivial
    fun _ _ _ _ _ _ ↦ trivial
  obtain ⟨held, hheld, hout⟩ := hsettled b hb
  obtain ⟨block, hblock⟩ := hblocks b hb
  rw [revise_eq hblock hheld, map_insert_eq_self hout]

/-- What is held at the ends of blocks when the passes are over is the greatest solution. -/
theorem exists_greatest : ∃ family, (∀ b ∈ g.rpo, (outs p imp g)[b]? = some (family b)) ∧
    Solves p imp g family ∧
    ∀ other, Solves p imp g other → ∀ b ∈ g.rpo, ∀ v ∈ other b, v ∈ family b := by
  obtain ⟨habove, hsettled⟩ := outs_spec hordered hblocks (q := Above p imp g)
    (fun _ _ hout ↦ by simp at hout) fun _ _ _ hheld hb h ↦ h.insert hb hheld
  have hfamily : ∀ b ∈ g.rpo, (outs p imp g)[b]? = some ((outs p imp g)[b]?.getD ∅) := by
    intro b hb
    obtain ⟨held, -, hout⟩ := hsettled b hb
    rw [hout, Option.getD_some]
  refine ⟨fun b ↦ (outs p imp g)[b]?.getD ∅, hfamily, fun b hb ↦ ?_,
    fun other hother b hb ↦ (habove b _ (hfamily b hb)).2 other hother⟩
  obtain ⟨held, hheld, hout⟩ := hsettled b hb
  refine ⟨held, by simp only [hout, Option.getD_some], fun v ↦ ?_⟩
  rw [mem_heldAtStart? hheld]
  refine and_congr_right fun _ ↦ forall₂_congr fun u _ ↦ ⟨fun h hin ↦ h _ (hfamily u hin),
    fun h out hout ↦ ?_⟩
  have hin : v ∈ (outs p imp g)[u]?.getD ∅ := h (habove u out hout).1
  rwa [hout, Option.getD_some] at hin

end Moments

end Availability

namespace Program

open Availability

/-- The passes of the analysis come to an end, and what they leave is the greatest solution of the
equations of availability. Whenever a block is revised, its start has been reached; the first pass
reaches every block of the order, and each later change replaces a set by a strict subset, so some
pass changes nothing. At all moments and in the table, only local variables of linear kind are
recorded. -/
theorem availability_passes_settle (p : Program) (imp : Implementation) :
    (imp.blocks = [] → p.availability imp = ∅) ∧
    (imp.blocks ≠ [] → ∃ g, FlowGraph.of? imp = some g ∧ p.availability imp = tableOver p imp g ∧
      (∀ passes revised b rest, g.rpo = revised ++ b :: rest →
        (∃ held, heldAtStart? g (p.heldAtEntry imp) (endsAt p imp g passes revised) b = some held ∧
          endsAt p imp g passes (revised ++ [b]) =
            (endsAt p imp g passes revised).insert b (p.transferBlock imp b held)) ∧
        ∀ (x : BlockId) before after, (endsAt p imp g passes revised)[x]? = some before →
          (endsAt p imp g passes (revised ++ [b]))[x]? = some after → before ≠ after →
            (∀ v ∈ after, v ∈ before) ∧ ∃ v ∈ before, v ∉ after) ∧
      (∀ b ∈ g.rpo, b ∈ endsAt p imp g 1 []) ∧
      (∃ passes, outs p imp g = endsAt p imp g passes [] ∧
        ∀ b ∈ g.rpo, revise p imp g (endsAt p imp g passes []) b = endsAt p imp g passes []) ∧
      (∃ family, (∀ b ∈ g.rpo, (outs p imp g)[b]? = some (family b)) ∧ Solves p imp g family ∧
        ∀ other, Solves p imp g other → ∀ b ∈ g.rpo, ∀ v ∈ other b, v ∈ family b) ∧
      ∀ passes revised rest, g.rpo = revised ++ rest → ∀ (b : BlockId) out,
        (endsAt p imp g passes revised)[b]? = some out → ∀ v ∈ out,
          ∃ d, p.var? v = some d ∧ d.isGlobal = false ∧ d.kind.isLinear = true) ∧
    ∀ (n : Node) held, (p.availability imp)[n]? = some held → ∀ v ∈ held,
      ∃ d, p.var? v = some d ∧ d.isGlobal = false ∧ d.kind.isLinear = true := by
  refine ⟨fun hnone ↦ ?_, fun hsome ↦ ?_,
    fun n held hheld v hv ↦ exists_var?_of_isTracked (isTracked_of_mem_availability hheld v hv)⟩
  · rw [availability, FlowGraph.of?_eq_none (by rw [Implementation.entry?, hnone]; rfl),
      Option.elim_none]
  · obtain ⟨entry, hentry⟩ := Implementation.exists_entry? hsome
    obtain ⟨g, hg⟩ := FlowGraph.exists_of? hentry
    have hordered := FlowGraph.ordered_of? hg
    have hblocks : ∀ b ∈ g.rpo, ∃ block, imp.block? b = some block :=
      fun _ ↦ FlowGraph.exists_block?_of_mem_rpo hg
    obtain ⟨passes, hpasses⟩ : ∃ passes, outs p imp g = endsAt p imp g passes [] :=
      exists_untilStable_eq_stage
    refine ⟨g, hg, by rw [availability, hg, Option.elim_some],
      fun passes revised b rest hsplit ↦ ?_, fun b hb ↦ ?_, ⟨passes, hpasses, fun b hb ↦ ?_⟩,
      exists_greatest hordered hblocks, fun passes revised rest hsplit b out hout v hv ↦ ?_⟩
    · have hnow : Falling p imp g revised (endsAt p imp g passes revised) :=
        falling_endsAt hordered hblocks hsplit
      rw [endsAt, endsAt, stage_snoc]
      obtain ⟨held, hheld, hrevise, -⟩ := revise_spec hordered hblocks hsplit hnow
      exact ⟨⟨held, hheld, hrevise⟩, fun x before after hbefore hafter hne ↦
        subset_and_ne_of_revise hordered hblocks hsplit hnow hbefore hafter hne⟩
    · rw [endsAt, ← stage_all]
      exact (falling_endsAt hordered hblocks (List.append_nil _).symm).mem_revised b hb
    · rw [← hpasses]
      exact revise_outs hordered hblocks hb
    · exact exists_var?_of_isTracked
        ((falling_endsAt hordered hblocks hsplit).tracked b out hout v hv)

/-- Two blocks share an identifier: the commands are those of the first one, which loses a
parameter, and the edges those of the second one, which lead back to the entry. -/
def overlaid : Implementation where
  id := ⟨0⟩
  procedure := ⟨0⟩
  name := "overlaid"
  ins := [⟨0⟩]
  outs := []
  locals := []
  blocks :=
    [⟨⟨0⟩, "entry", [], .goto [⟨1⟩, ⟨9⟩], [], .zero⟩,
      ⟨⟨1⟩, "lose", [⟨⟨0⟩, .zero, .havoc [⟨0⟩]⟩], .ret, [], .zero⟩,
      ⟨⟨1⟩, "back", [], .goto [⟨0⟩, ⟨1⟩, ⟨0⟩], [], .zero⟩]
  span := .zero

theorem availability_passes_settle_overlaid : overlaid.blocks ≠ [] ∧ ¬ overlaid.blockIds.Nodup ∧
    ∃ g, FlowGraph.of? overlaid = some g ∧ g.rpo = [] ++ ⟨0⟩ :: [⟨1⟩] ∧
      g.prior ⟨0⟩ = [⟨1⟩, ⟨1⟩] ∧
      ∃ before after, (endsAt token overlaid g 1 [])[(⟨0⟩ : BlockId)]? = some before ∧
        (endsAt token overlaid g 1 [⟨0⟩])[(⟨0⟩ : BlockId)]? = some after ∧
        before ≠ after ∧ (∀ v ∈ after, v ∈ before) ∧
        ∃ family, Solves token overlaid g family ∧ ∀ b ∈ g.rpo, family b = ∅ := by
  have hgraph : (FlowGraph.of? overlaid).map (fun g ↦ (g.rpo, g.prior ⟨0⟩)) =
      some ([] ++ ⟨0⟩ :: [⟨1⟩], [⟨1⟩, ⟨1⟩]) := by decide +kernel
  have hends : (FlowGraph.of? overlaid).map (fun g ↦
      ((endsAt token overlaid g 1 [])[(⟨0⟩ : BlockId)]?,
        (endsAt token overlaid g 1 [⟨0⟩])[(⟨0⟩ : BlockId)]?)) =
      some (some (Std.ExtTreeSet.ofList [(⟨0⟩ : VarId)]), some ∅) := by decide +kernel
  have houts : (FlowGraph.of? overlaid).map (fun g ↦
      ((outs token overlaid g)[(⟨0⟩ : BlockId)]?, (outs token overlaid g)[(⟨1⟩ : BlockId)]?)) =
      some (some ∅, some ∅) := by decide +kernel
  obtain ⟨g, hg, -, hmoment, -, -, ⟨family, hfamily, hsolves, -⟩, -⟩ :=
    (availability_passes_settle token overlaid).2.1 (List.cons_ne_nil _ _)
  rw [hg] at hgraph hends houts
  simp only [Option.map_some, Option.some.injEq, Prod.mk.injEq] at hgraph hends houts
  obtain ⟨hrpo, hprior⟩ := hgraph
  obtain ⟨hbefore, hafter⟩ := hends
  have hne : Std.ExtTreeSet.ofList [(⟨0⟩ : VarId)] ≠ ∅ := by decide +kernel
  have hsmaller := (hmoment 1 [] ⟨0⟩ [⟨1⟩] hrpo).2 ⟨0⟩ _ _ hbefore hafter hne
  refine ⟨List.cons_ne_nil _ _, by decide, g, hg, hrpo, hprior, _, _, hbefore, hafter, hne,
    hsmaller.1, family, hsolves, fun b hb ↦ ?_⟩
  have hout := hfamily b hb
  rw [hrpo] at hb
  rcases List.mem_cons.mp hb with rfl | hb
  · exact Option.some.inj (hout.symm.trans houts.1)
  · obtain rfl := List.mem_singleton.mp hb
    exact Option.some.inj (hout.symm.trans houts.2)

end Program

end OwnershipFlow
