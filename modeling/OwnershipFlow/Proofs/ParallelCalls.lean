import OwnershipFlow.Proofs.Availability

/-!
# The order of the arms of parallel calls

A parallel call loses what its arms pass to parameters owned at entry (`Program.Passes`), and then
gains the tracked variables that its arms receive (`Program.Receives`). So what one arm receives is
held afterwards even if another one passes it on, wherever the two stand (`mem_transfer_parCall`).
Carried out arm by arm, all arms lose first and all arms gain then, each time in any order
(`transfer_parCall_eq_foldl`); letting each arm lose and gain in turn is something else.

Of a block the analysis sees the identifier, the transfer, and the identifiers and the effects of
the commands (`Program.outline`): implementations with the same parameters and the same outlines
have the same table, also where identifiers are repeated (`availability_eq_of_outlines`). Parallel
calls of the same arms in another order have the same effect, so arms may be put into any order
anywhere in an implementation (`parCall_arms_commute`).
-/

set_option autoImplicit false
set_option relaxedAutoImplicit false

namespace OwnershipFlow

variable {p : Program} {imp other : Implementation} {g : FlowGraph} {b : BlockId} {held : VarSet}
  {v : VarId} {call : Call} {arms arms' : List Call} {id : CommandId} {span : Span}

/-! ### Sets changed member by member -/

theorem mem_foldl_erase {l : List VarId} : v ∈ l.foldl .erase held ↔ v ∈ held ∧ v ∉ l := by
  induction l generalizing held with
  | nil => simp
  | cons w rest ih =>
    rw [List.foldl_cons, ih, Std.ExtTreeSet.mem_erase, ne_eq, Std.LawfulEqCmp.compare_eq_iff_eq,
      List.mem_cons, not_or, eq_comm]
    tauto

theorem mem_foldl_insert {l : List VarId} : v ∈ l.foldl .insert held ↔ v ∈ held ∨ v ∈ l := by
  induction l generalizing held with
  | nil => simp
  | cons w rest ih =>
    rw [List.foldl_cons, ih, mem_set_insert, List.mem_cons]
    tauto

namespace Program

/-! ### The effect of a parallel call -/

/-- A call passes a bare variable to a parameter of a declared callee that is owned at entry. -/
def Passes (p : Program) (call : Call) (v : VarId) : Prop :=
  ∃ callee, p.procedures[call.callee]? = some callee ∧ ∃ (position : Nat) (formal : VarId),
    call.args[position]? = some (.var v) ∧ callee.ins[position]? = some formal ∧
      (p.kind formal = .linear ∨ p.kind formal = .linearIn)

/-- A call puts an output into a variable that is declared, local and of linear kind. -/
def Receives (p : Program) (call : Call) (v : VarId) : Prop :=
  v ∈ call.outs ∧ ∃ declared, p.var? v = some declared ∧ declared.isGlobal = false ∧
    declared.kind ≠ .ordinary

/-- Arguments and parameters meet at the same position. -/
theorem mem_args_zip_ins {callee : Procedure} {arg : Expr} {formal : VarId} :
    (arg, formal) ∈ call.args.zip callee.ins ↔
      ∃ position : Nat, call.args[position]? = some arg ∧ callee.ins[position]? = some formal := by
  rw [List.mem_iff_getElem?]
  simp only [List.getElem?_zip_eq_some]

theorem mem_passed : v ∈ p.passed call ↔ p.Passes call v := by
  unfold passed Passes
  cases hcallee : p.procedures[call.callee]? with
  | none => simp
  | some callee =>
    simp only [List.mem_filterMap, Prod.exists, mem_args_zip_ins, Option.ite_none_right_eq_some,
      Expr.bareVar?_eq_some_iff, LinearKind.ownedAtEntry_iff, Option.some.injEq, exists_eq_left']
    constructor
    · rintro ⟨_, formal, ⟨position, harg, hformal⟩, howned, rfl⟩
      exact ⟨position, formal, harg, hformal, howned⟩
    · rintro ⟨position, formal, harg, hformal, howned⟩
      exact ⟨.var v, formal, ⟨position, harg, hformal⟩, howned, rfl⟩

theorem mem_tracked_outs : v ∈ p.tracked call.outs ↔ p.Receives call v := by
  rw [mem_tracked, Receives, isTracked]
  refine and_congr_right fun _ ↦ ?_
  cases p.var? v with
  | none => simp
  | some declared =>
    obtain ⟨_, _, kind, _, _, _⟩ := declared
    cases kind <;> simp [Variable.isTracked, LinearKind.isLinear]

/-- A parallel call loses what some arm passes on, unless some arm receives it, and gains what some
arm receives. -/
theorem mem_transfer_parCall : v ∈ p.transfer held ⟨id, span, .parCall arms⟩ ↔
    (v ∈ held ∧ ¬ ∃ arm ∈ arms, p.Passes arm v) ∨ ∃ arm ∈ arms, p.Receives arm v := by
  rw [transfer, Effect.mem_act, effect, mem_set_ofList, List.mem_flatMap, mem_tracked,
    List.mem_flatMap]
  simp only [mem_passed, ← mem_tracked_outs, mem_tracked, exists_and_right, ← and_assoc]

/-- Parallel calls of the same arms have the same effect. -/
theorem effect_parCall_perm (h : arms.Perm arms') :
    p.effect (.parCall arms) = p.effect (.parCall arms') := by
  refine congrArg₂ Effect.mk (Std.ExtTreeSet.ext_mem fun v ↦ ?_)
    (Std.ExtTreeSet.ext_mem fun v ↦ ?_)
  · rw [mem_set_ofList, mem_set_ofList]
    exact (h.flatMap_right p.passed).mem_iff
  · rw [mem_tracked, mem_tracked, (h.flatMap_right Call.outs).mem_iff]

theorem effect_parCall_singleton : p.effect (.parCall [call]) = p.effect (.call call) := by
  rw [effect, effect, List.flatMap_singleton, List.flatMap_singleton]

/-! ### Arm by arm -/

/-- What an arm leaves of what is held: all but what it passes on. -/
def lose (p : Program) (held : VarSet) (arm : Call) : VarSet :=
  (p.passed arm).foldl .erase held

/-- What is held when an arm has received its outputs. -/
def gain (p : Program) (held : VarSet) (arm : Call) : VarSet :=
  (arm.outs.filter p.isTracked).foldl .insert held

theorem mem_foldl_lose : v ∈ arms.foldl p.lose held ↔
    v ∈ held ∧ ¬ ∃ arm ∈ arms, p.Passes arm v := by
  induction arms generalizing held with
  | nil => simp
  | cons arm rest ih =>
    rw [List.foldl_cons, ih, lose, mem_foldl_erase, mem_passed]
    simp only [List.mem_cons, exists_eq_or_imp, not_or, and_assoc]

theorem mem_foldl_gain : v ∈ arms.foldl p.gain held ↔
    v ∈ held ∨ ∃ arm ∈ arms, p.Receives arm v := by
  induction arms generalizing held with
  | nil => simp
  | cons arm rest ih =>
    rw [List.foldl_cons, ih, gain, mem_foldl_insert, List.mem_filter, ← mem_tracked,
      mem_tracked_outs]
    simp only [List.mem_cons, exists_eq_or_imp, or_assoc]

/-- All arms lose, and then all arms gain, in whatever order they do the one and the other. -/
theorem transfer_parCall_eq_foldl {losing gaining : List Call} (hlosing : losing.Perm arms)
    (hgaining : gaining.Perm arms) :
    p.transfer held ⟨id, span, .parCall arms⟩ =
      gaining.foldl p.gain (losing.foldl p.lose held) := by
  refine Std.ExtTreeSet.ext_mem fun v ↦ ?_
  rw [mem_transfer_parCall, mem_foldl_gain, mem_foldl_lose]
  simp only [hlosing.mem_iff, hgaining.mem_iff]

/-! ### What the analysis sees of a block -/

/-- The identifier of a block, its transfer, and the identifiers and the effects of its commands. -/
def outline (p : Program) (b : Block) : BlockId × Transfer × List (CommandId × Effect) :=
  (b.id, b.transfer, b.commands.map fun c ↦ (c.id, p.effect c.action))

section Outlines

variable (h : other.blocks.map p.outline = imp.blocks.map p.outline)

include h

/-- The edges between blocks are those of their outlines. -/
theorem edges_eq_of_outlines : Edges.of? other = Edges.of? imp := by
  have hmap : ∀ {α : Type} (f : BlockId × Transfer → α),
      other.blocks.map (fun b ↦ f (b.id, b.transfer)) =
        imp.blocks.map fun b ↦ f (b.id, b.transfer) := by
    intro α f
    have houtlines := congrArg (List.map fun x ↦ f (x.1, x.2.1)) h
    rwa [List.map_map, List.map_map] at houtlines
  have hids : other.blocks.map Block.id = imp.blocks.map Block.id := hmap Prod.fst
  have hentry : other.entry? = imp.entry? := by
    rw [Implementation.entry?, ← List.head?_map, hids, List.head?_map, Implementation.entry?]
  have hexisting : other.blocks.map (fun b ↦ (b.id, Edges.existing other.blocks b)) =
      imp.blocks.map fun b ↦ (b.id, Edges.existing imp.blocks b) := by
    unfold Edges.existing
    rw [hids]
    exact hmap fun x ↦ (x.1, x.2.targets.filter (imp.blocks.map Block.id).contains)
  have hsources : Edges.sources other.blocks = Edges.sources imp.blocks := by
    funext target
    unfold Edges.sources
    rw [List.flatMap_def, List.flatMap_def]
    exact congrArg List.flatten (hmap fun x ↦ List.replicate (x.2.targets.count target) x.1)
  have hprior : other.blocks.map (fun b ↦ (b.id, Edges.sources other.blocks b.id)) =
      imp.blocks.map fun b ↦ (b.id, Edges.sources imp.blocks b.id) := by
    rw [hsources]
    exact hmap fun x ↦ (x.1, Edges.sources imp.blocks x.1)
  rw [Edges.of?_eq, Edges.of?_eq, hentry, hexisting, hprior]

/-- Looking up a block finds blocks with the same outline, or none. -/
theorem block?_of_outlines (b : BlockId) : (other.block? b = none ∧ imp.block? b = none) ∨
    ∃ block' block, other.block? b = some block' ∧ imp.block? b = some block ∧
      block'.commands.map (fun c ↦ (c.id, p.effect c.action)) =
        block.commands.map fun c ↦ (c.id, p.effect c.action) := by
  have hfind : ∀ l : List Block, (l.find? (·.id = b)).map p.outline =
      (l.map p.outline).find? (·.1 = b) := fun l ↦ by
    rw [List.find?_map]
    rfl
  have hb : (other.block? b).map p.outline = (imp.block? b).map p.outline := by
    rw [Implementation.block?, Implementation.block?, hfind, hfind, h]
  cases himp : imp.block? b with
  | none =>
    rw [himp, Option.map_none, Option.map_eq_none_iff] at hb
    exact .inl ⟨hb, rfl⟩
  | some block =>
    rw [himp, Option.map_some, Option.map_eq_some_iff] at hb
    obtain ⟨block', hother, houtline⟩ := hb
    exact .inr ⟨block', block, hother, rfl, congrArg (·.2.2) houtline⟩

end Outlines

section Effects

variable {commands commands' : List Command}
  (h : commands'.map (fun c ↦ (c.id, p.effect c.action)) =
    commands.map fun c ↦ (c.id, p.effect c.action))

include h

theorem transferAll_eq_of_effects : p.transferAll commands' held = p.transferAll commands held := by
  have hfold : ∀ l : List Command, p.transferAll l held =
      (l.map fun c ↦ (c.id, p.effect c.action)).foldl (fun held x ↦ x.2.act held) held := by
    intro l
    rw [List.foldl_map]
    rfl
  rw [hfold, hfold, h]

theorem commandEntries_eq_of_effects :
    Availability.commandEntries p held commands' = Availability.commandEntries p held commands := by
  induction commands generalizing held commands' with
  | nil =>
    rw [List.map_nil, List.map_eq_nil_iff] at h
    rw [h]
  | cons c rest ih =>
    obtain ⟨c', rest', rfl, hc, hrest⟩ := List.map_eq_cons_iff.mp h
    obtain ⟨hid, heffect⟩ := Prod.mk.inj hc
    have htransfer : p.transfer held c' = p.transfer held c := congrArg (Effect.act · held) heffect
    rw [Availability.commandEntries, Availability.commandEntries, hid, htransfer, ih hrest]

end Effects

/-- Implementations with the same parameters and the same outlines have the same table. -/
theorem availability_eq_of_outlines (hins : other.ins = imp.ins)
    (h : other.blocks.map p.outline = imp.blocks.map p.outline) :
    p.availability other = p.availability imp := by
  have hrevise : Availability.revise p other = Availability.revise p imp := by
    funext g ends b
    rw [Availability.revise, Availability.revise, heldAtEntry_congr hins]
    rcases block?_of_outlines h b with ⟨hother, himp⟩ | ⟨block', block, hother, himp, hcommands⟩
    · rw [hother, himp]
    · rw [hother, himp]
      cases Availability.heldAtStart? g (p.heldAtEntry imp) ends b with
      | none => rfl
      | some held => exact congrArg (ends.insert b) (transferAll_eq_of_effects hcommands)
  have hentries : Availability.blockEntries p other = Availability.blockEntries p imp := by
    funext g ends b
    rw [Availability.blockEntries, Availability.blockEntries, heldAtEntry_congr hins]
    rcases block?_of_outlines h b with ⟨hother, himp⟩ | ⟨block', block, hother, himp, hcommands⟩
    · rw [hother, himp]
    · rw [hother, himp]
      cases Availability.heldAtStart? g (p.heldAtEntry imp) ends b with
      | none => rfl
      | some held => exact congrArg (_ :: ·) (commandEntries_eq_of_effects hcommands)
  have htable : Availability.tableOver p other = Availability.tableOver p imp := by
    funext g
    unfold Availability.tableOver Availability.outs Availability.pass
    rw [hrevise, hentries]
  rw [availability, availability, FlowGraph.of?, FlowGraph.of?, edges_eq_of_outlines h, htable]

end Program

/-! ### Arms in another order -/

/-- The same action, or a parallel call of the same arms in another order. -/
inductive Action.Rearranged : Action → Action → Prop
  | same (action : Action) : Rearranged action action
  | arms {arms arms' : List Call} (h : arms.Perm arms') :
    Rearranged (.parCall arms) (.parCall arms')

/-- A command that differs from another one at most in the order of its arms. -/
structure Command.Rearranged (c c' : Command) : Prop where
  eq : c' = { c with action := c'.action }
  action : c.action.Rearranged c'.action

/-- A block that differs from another one at most in the order of the arms of its commands. -/
structure Block.Rearranged (b b' : Block) : Prop where
  eq : b' = { b with commands := b'.commands }
  commands : List.Forall₂ Command.Rearranged b.commands b'.commands

/-- An implementation that differs from another one at most in the order of the arms of its
parallel calls. -/
structure Implementation.Rearranged (imp other : Implementation) : Prop where
  eq : other = { imp with blocks := other.blocks }
  blocks : List.Forall₂ Block.Rearranged imp.blocks other.blocks

namespace Program

theorem effect_eq_of_rearranged {action action' : Action} (h : action.Rearranged action') :
    p.effect action = p.effect action' := by
  cases h with
  | same => rfl
  | arms h => exact effect_parCall_perm h

theorem outline_eq_of_rearranged {block block' : Block} (h : block.Rearranged block') :
    p.outline block = p.outline block' := by
  have hcommands : block.commands.map (fun c ↦ (c.id, p.effect c.action)) =
      block'.commands.map fun c ↦ (c.id, p.effect c.action) := by
    refine map_eq_map_of_forall₂ h.commands fun c c' hc ↦ ?_
    rw [effect_eq_of_rearranged hc.action, hc.eq]
  rw [outline, outline, hcommands, h.eq]

/-- Implementations that differ only in the order of the arms inside their parallel calls have the
same table. What is held after a parallel call is what was held before it and no arm passes on, and
what some arm receives; arm by arm, this is what is held if first all arms lose and then all arms
gain, in any orders. So an output of an arm is held whichever arms pass it on. One arm alone does
the same as a plain call. -/
theorem parCall_arms_commute (p : Program) :
    (∀ imp other : Implementation, imp.Rearranged other →
      p.availability other = p.availability imp) ∧
    (∀ (id : CommandId) (span : Span) (arms : List Call) (held : VarSet),
      (∀ v, v ∈ p.transfer held ⟨id, span, .parCall arms⟩ ↔
        (v ∈ held ∧ ¬ ∃ arm ∈ arms, p.Passes arm v) ∨ ∃ arm ∈ arms, p.Receives arm v) ∧
      (∀ losing gaining : List Call, losing.Perm arms → gaining.Perm arms →
        p.transfer held ⟨id, span, .parCall arms⟩ =
          gaining.foldl p.gain (losing.foldl p.lose held)) ∧
      ∀ v, ∀ arm ∈ arms, p.Receives arm v → v ∈ p.transfer held ⟨id, span, .parCall arms⟩) ∧
    ∀ (id : CommandId) (span : Span) (call : Call) (held : VarSet),
      p.transfer held ⟨id, span, .parCall [call]⟩ = p.transfer held ⟨id, span, .call call⟩ := by
  refine ⟨fun imp other h ↦ ?_, fun id span arms held ↦ ⟨fun v ↦ mem_transfer_parCall,
    fun losing gaining ↦ transfer_parCall_eq_foldl, fun v arm harm hreceives ↦ ?_⟩,
    fun id span call held ↦ ?_⟩
  · refine availability_eq_of_outlines (by rw [h.eq]) ?_
    exact (map_eq_map_of_forall₂ h.blocks fun _ _ ↦ outline_eq_of_rearranged).symm
  · exact mem_transfer_parCall.mpr (.inr ⟨arm, harm, hreceives⟩)
  · rw [transfer, transfer, effect_parCall_singleton]

/-- A local variable, a procedure that makes a permission and one that takes one. -/
def market : Program :=
  let p := (empty.addVar ⟨"token", false, .linear, some "Token", none, .zero⟩).2
  let p := (p.addVar ⟨"made", false, .linearOut, some "Token", none, .zero⟩).2
  let p := (p.addVar ⟨"taken", false, .linearIn, some "Token", none, .zero⟩).2
  let p := (p.addProcedure "make" [] [⟨1⟩] .zero).2
  (p.addProcedure "take" [⟨2⟩] [] .zero).2

/-- A call that makes a permission for the variable. -/
def making : Call := ⟨⟨0⟩, [], [⟨0⟩]⟩

/-- A call that takes the permission of the variable. -/
def sinking : Call := ⟨⟨1⟩, [.var ⟨0⟩], []⟩

/-- An implementation that runs arms in parallel, again and again. -/
def bargain (arms : List Call) : Implementation where
  id := ⟨0⟩
  procedure := ⟨0⟩
  name := "bargain"
  ins := []
  outs := []
  locals := [⟨0⟩]
  blocks := [⟨⟨0⟩, "again", [⟨⟨0⟩, .zero, .parCall arms⟩], .goto [⟨0⟩], [], .zero⟩]
  span := .zero

theorem parCall_arms_commute_bargain :
    (bargain [making, sinking]).Rearranged (bargain [sinking, making]) ∧
    market.availability (bargain [sinking, making]) =
      market.availability (bargain [making, sinking]) ∧
    market.Passes sinking ⟨0⟩ ∧ market.Receives making ⟨0⟩ ∧
    ⟨0⟩ ∈ market.transfer ∅ ⟨⟨0⟩, .zero, .parCall [making, sinking]⟩ ∧
    ⟨0⟩ ∉ [making, sinking].foldl (fun held arm ↦ market.gain (market.lose held arm) arm) ∅ := by
  obtain ⟨htables, heffect, -⟩ := parCall_arms_commute market
  have hrearranged : (bargain [making, sinking]).Rearranged (bargain [sinking, making]) :=
    ⟨rfl, .cons ⟨rfl, .cons ⟨rfl, .arms (.swap ..)⟩ .nil⟩ .nil⟩
  have hreceives : market.Receives making ⟨0⟩ := ⟨by decide, _, rfl, rfl, by decide⟩
  refine ⟨hrearranged, htables _ _ hrearranged, mem_passed.mp (by decide +kernel), hreceives,
    (heffect ⟨0⟩ .zero [making, sinking] ∅).2.2 ⟨0⟩ making (by decide) hreceives,
    by decide +kernel⟩

end Program

end OwnershipFlow
