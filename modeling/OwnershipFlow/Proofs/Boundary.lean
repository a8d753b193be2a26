import OwnershipFlow.Proofs.Meaning

/-!
# Assumptions at the boundary of a procedure

At its entry a procedure owns the in-parameters of kinds `linear` and `linearIn`, at its exit the
parameters, of either list, of kinds `linear` and `linearOut` (`OwnedAt`). What is assumed there is
one predicate for each domain with at least two terms, and it mentions the substitutes of exactly
the parameters owned there that name the domain, and the hole of the domain
(`assumeAtBoundary_owned`). This holds of any declaration, whether the program has it or not, and
however its lists repeat parameters. Globals take part only where they are listed as parameters.

The same predicates are found at the point of the procedure, without globals, unless the procedure
stands for a declaration with other in-parameters.
-/

set_option autoImplicit false
set_option relaxedAutoImplicit false

namespace OwnershipFlow

variable {p : Program} {t : Instrumenter} {declared : Procedure} {entry : Bool} {d : DomainId}
  {name : String} {v w : VarId} {e : Expr} {scope : List VarId} {exprs : List Expr} {span : Span}
  {s : Supply}

theorem LinearKind.ownedAtExit_iff {k : LinearKind} :
    k.ownedAtExit = true ↔ k = .linear ∨ k = .linearOut := by
  cases k <;> simp [ownedAtExit]

namespace Instrumenter

/-- A parameter that a procedure owns at its entry, or at its exit. -/
def OwnedAt (t : Instrumenter) (declared : Procedure) : Bool → VarId → Prop
  | true, v => v ∈ declared.ins ∧ (t.checked.kind v = .linear ∨ t.checked.kind v = .linearIn)
  | false, v => (v ∈ declared.ins ∨ v ∈ declared.outs) ∧
      (t.checked.kind v = .linear ∨ t.checked.kind v = .linearOut)

/-- The substitute of a parameter owned at one end that names a domain and exists at the layer. -/
def CollectsAt (t : Instrumenter) (declared : Procedure) (entry : Bool) (name : String)
    (w : VarId) : Prop :=
  ∃ v, (t.OwnedAt declared entry v ∧ (t.checked.layers v).contains t.settings.layer = true) ∧
    (t.checked.var? v).bind Variable.domain? = some name ∧ t.settings.rename v = w

theorem mem_boundaryScope : v ∈ t.boundaryScope declared entry ↔
    t.OwnedAt declared entry v ∧ (t.checked.layers v).contains t.settings.layer = true := by
  cases entry with
  | true =>
    show v ∈ List.filter _ declared.ins ↔ _
    rw [List.mem_filter, Bool.and_eq_true, LinearKind.ownedAtEntry_iff, ← and_assoc]
    rfl
  | false =>
    show v ∈ List.filter _ (declared.ins ++ declared.outs) ↔ _
    rw [List.mem_filter, Bool.and_eq_true, LinearKind.ownedAtExit_iff, List.mem_append, ← and_assoc]
    rfl

theorem mem_inDomain_boundaryScope_iff (hcheck : p.check = .ok t.checked)
    (hd : t.checked.registry.domain? d = some name) :
    w ∈ t.inDomain (t.boundaryScope declared entry) d ↔ t.CollectsAt declared entry name w := by
  rw [mem_inDomain_of_check hcheck hd]
  simp only [mem_boundaryScope]
  rfl

/-! ### Predicates and their variables -/

/-- There is a predicate about each domain with two terms or more: one for each of its variables,
and one for its hole. -/
theorem mem_map_fst_stated_iff_length (hcheck : p.check = .ok t.checked) :
    d ∈ (t.stated scope).map Prod.fst ↔ ∃ name, t.checked.registry.domain? d = some name ∧
      2 ≤ (t.inDomain scope d).toList.length + (t.settings.hole? d).toList.length := by
  rw [mem_map_fst_stated hcheck]
  refine exists_congr fun name ↦ and_congr_right fun _ ↦ ?_
  rw [terms_eq hcheck, List.length_append, List.length_map, List.length_map]

/-- The predicate about a domain mentions its variables and its hole. -/
theorem mem_freeVars_of_mem_stated (hcheck : p.check = .ok t.checked)
    (hstated : (d, e) ∈ t.stated scope) :
    w ∈ e.freeVars ↔ t.settings.hole? d = some w ∨ w ∈ (t.inDomain scope d).toList := by
  obtain ⟨name, -, htwo, rfl⟩ := (mem_stated hcheck).mp hstated
  rw [Encoding.mem_freeVars_disjointness htwo, terms_eq hcheck]
  simp [Expr.freeVars, Expr.freeVarsOfList, or_and_right, exists_or, or_comm]

/-! ### Commands -/

theorem map_action_assumeFrom {next : UInt32} :
    (assumeFrom next span exprs).map Command.action = exprs.map .assume := by
  induction exprs generalizing next with
  | nil => rfl
  | cons e rest ih => exact congrArg (Action.assume e :: ·) ih

/-- The assumptions at the boundary state the predicates in order, under identifiers taken one after
the other. -/
theorem assumeAtBoundary_eq : t.assumeAtBoundary declared entry s =
    ((t.stated (t.boundaryScope declared entry)).zipWith
        (fun (_, e) id ↦ ⟨id, declared.span, .assume e⟩)
        (Ident.consecutive s.command (t.stated (t.boundaryScope declared entry)).length),
      s.skipCommands (t.stated (t.boundaryScope declared entry)).length) := by
  rw [assumeAtBoundary, disjointness_eq_map_stated, assume, assumeFrom, List.length_map,
    List.zipWith_map_left]

/-- The predicates of the parameters owned at entry are those at the point of the procedure, unless
it stands for a declaration with other in-parameters. -/
theorem disjointness_boundaryScope_eq
    (hsame : ∀ source signature, t.origins.get? (.procedure declared.id) = some source →
      t.checked.signature? source = some signature → ∀ v, v ∈ signature.ins ↔ v ∈ declared.ins) :
    t.disjointness (t.boundaryScope declared true) =
      t.disjointnessAt (.procedure declared) false := by
  refine disjointness_congr fun v ↦ ?_
  rw [mem_boundaryScope, mem_scope_iff, Within, HeldAt, OwnedParameter,
    entryParameter_iff_mem hsame, OwnedAt]
  simp

/-- In an accepted program, what is assumed at the entry or at the exit of any procedure is, under
identifiers taken one after the other, one predicate for each domain that has at least two terms
there, in ascending order. It mentions the substitutes of the parameters owned there that name the
domain, and the hole of the domain. At the entry the same predicates are found as at the point of
the procedure without globals, if the procedure stands for nothing else, or for a node without
parameters on record, or for a declaration with the same in-parameters. -/
theorem assumeAtBoundary_owned (p : Program) (t : Instrumenter) (hcheck : p.check = .ok t.checked)
    (declared : Procedure) (s : Supply) :
    (∀ entry, ∃ vars : DomainId → List VarId,
      (∀ d name, t.checked.registry.domain? d = some name →
        (vars d).Pairwise (·.index < ·.index) ∧
          ∀ w, w ∈ vars d ↔ t.CollectsAt declared entry name w) ∧
      ∃ stated : List (DomainId × Expr),
        t.assumeAtBoundary declared entry s =
          (stated.zipWith (fun (_, e) id ↦ ⟨id, declared.span, .assume e⟩)
            (Ident.consecutive s.command stated.length), s.skipCommands stated.length) ∧
        (stated.map Prod.fst).Pairwise (·.index < ·.index) ∧
        (∀ d, d ∈ stated.map Prod.fst ↔ ∃ name, t.checked.registry.domain? d = some name ∧
          2 ≤ (vars d).length + (t.settings.hole? d).toList.length) ∧
        ∀ d e, (d, e) ∈ stated → ∀ w, w ∈ e.freeVars ↔
          t.settings.hole? d = some w ∨ w ∈ vars d) ∧
    ((∀ source signature, t.origins.get? (.procedure declared.id) = some source →
        t.checked.signature? source = some signature → ∀ v, v ∈ signature.ins ↔ v ∈ declared.ins) →
      ∀ span s', (t.assumeAtBoundary declared true s).1.map Command.action =
        (t.assumeAt (.procedure declared) false span s').1.map Command.action) := by
  refine ⟨fun entry ↦ ⟨fun d ↦ (t.inDomain (t.boundaryScope declared entry) d).toList,
    fun d name hd ↦ ⟨pairwise_toList_inDomain, fun w ↦ ?_⟩,
    t.stated (t.boundaryScope declared entry), assumeAtBoundary_eq, pairwise_stated,
    fun d ↦ mem_map_fst_stated_iff_length hcheck,
    fun d e hstated w ↦ mem_freeVars_of_mem_stated hcheck hstated⟩, fun hsame span s' ↦ ?_⟩
  · rw [Std.ExtTreeSet.mem_toList, mem_inDomain_boundaryScope_iff hcheck hd]
  · rw [assumeAtBoundary, assumeAt, assume, assume, map_action_assumeFrom, map_action_assumeFrom,
      disjointness_boundaryScope_eq hsame]

/-- A procedure that takes three variables and gives two of them back. -/
def exchanging : Procedure := ⟨⟨0⟩, "exchange", [⟨2⟩, ⟨0⟩, ⟨1⟩], [⟨0⟩, ⟨2⟩], .zero⟩

/-- A pass over variables of two domains, one of which has a hole, for which the procedure stands
for one without parameters on record. -/
def exchanger : Instrumenter :=
  { lender with origins := Origins.empty.insert (.procedure ⟨0⟩) (.procedure ⟨4⟩) }

theorem assumeAtBoundary_owned_exchanging : holders.check = .ok exchanger.checked ∧
    exchanger.origins.get? (.procedure exchanging.id) = some (.procedure ⟨4⟩) ∧
    (∃ e, ∃ c ∈ (exchanger.assumeAtBoundary exchanging true .initial).1, c.action = .assume e ∧
      ⟨9⟩ ∈ e.freeVars ∧ ⟨1⟩ ∈ e.freeVars) ∧
    (exchanger.assumeAtBoundary exchanging true .initial).1.map Command.action =
      (exchanger.assumeAt (.procedure exchanging) false .zero .initial).1.map Command.action := by
  obtain ⟨howned, hsame⟩ := assumeAtBoundary_owned holders exchanger rfl exchanging .initial
  obtain ⟨vars, hvars, stated, heq, -, hdomains, hmention⟩ := howned true
  have hlock : exchanger.checked.registry.domain? ⟨0⟩ = some "Lock" := by decide +kernel
  have hhole : exchanger.settings.hole? ⟨0⟩ = some ⟨9⟩ := by decide +kernel
  have hin : ⟨1⟩ ∈ vars ⟨0⟩ := by
    refine ((hvars ⟨0⟩ "Lock" hlock).2 ⟨1⟩).mpr ⟨⟨1⟩, ⟨⟨by decide, .inr ?_⟩, ?_⟩, ?_, ?_⟩
    all_goals decide +kernel
  obtain ⟨⟨d, e⟩, hstated, rfl⟩ := List.mem_map.mp ((hdomains ⟨0⟩).mpr ⟨"Lock", hlock, by
    rw [hhole]
    exact Nat.succ_le_succ (List.length_pos_of_mem hin)⟩)
  obtain ⟨position, hposition, hget⟩ := List.mem_iff_getElem.mp hstated
  have hassumed : position < (exchanger.assumeAtBoundary exchanging true .initial).1.length := by
    rw [heq, List.length_zipWith, Ident.length_consecutive, Nat.min_self]
    exact hposition
  have haction : (exchanger.assumeAtBoundary exchanging true .initial).1[position].action =
      .assume e := by
    simp only [heq, List.getElem_zipWith, hget]
  refine ⟨rfl, by decide +kernel, ⟨e, _, List.getElem_mem hassumed, haction,
    (hmention _ e hstated ⟨9⟩).mpr (.inl hhole), (hmention _ e hstated ⟨1⟩).mpr (.inr hin)⟩,
    hsame (fun source signature hget hsignature ↦ ?_) .zero .initial⟩
  have hsource : exchanger.origins.get? (.procedure exchanging.id) = some (.procedure ⟨4⟩) := by
    decide +kernel
  have hnone : exchanger.checked.signature? (.procedure ⟨4⟩) = none := by decide +kernel
  cases hsource.symm.trans hget
  cases hnone.symm.trans hsignature

end Instrumenter

end OwnershipFlow
