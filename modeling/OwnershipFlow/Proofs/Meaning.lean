import Mathlib.Data.Nat.Choose.Basic
import Mathlib.Data.Set.Lattice
import Mathlib.Order.CompletePartialOrder
import OwnershipFlow.Proofs.Scope

/-!
# What the predicates mean

In the collector encoding, permissions stand for sets of resources. Whatever sets are assigned to
the variables (`Interpretation`, `exists_interpretation`), the union of permissions denotes the
union of their sets (`mem_resources_union`), and the predicate of a domain holds exactly if no two
of its terms have a resource in common (`holds_disjointness`), since it is the conjunction over
every pair of positions, each listed once (`pairs_eq_map_places`, `mem_places`, `nodup_places`).

Predicates that are left out are those of domains with fewer than two terms (`isTrue_iff_length`),
which have nothing to keep apart. So the predicates at a point say of all domains that their terms
are disjoint, though they mention only some of them (`disjointnessAt_states_disjoint`).
-/

set_option autoImplicit false
set_option relaxedAutoImplicit false

universe u

namespace OwnershipFlow

theorem Expr.mem_freeVars_conj {parts : List Expr} {w : VarId} :
    w ∈ (conj parts).freeVars ↔ ∃ e ∈ parts, w ∈ e.freeVars := by
  match parts with
  | [] => simp [freeVars]
  | [_] => simp
  | _ :: _ :: _ => exact mem_freeVarsOfList

/-! ### Pairs of positions -/

namespace Encoding

variable {terms : List Expr} {name : String} {n : Nat}

/-- Every pair of different positions, the smaller one first. -/
def places : (n : Nat) → List (Fin n × Fin n)
  | 0 => []
  | n + 1 => (List.finRange n).map (fun j ↦ (0, j.succ)) ++
      (places n).map (Prod.map Fin.succ Fin.succ)

theorem mem_places {i j : Fin n} : (i, j) ∈ places n ↔ i < j := by
  induction n with
  | zero => exact i.elim0
  | succ n ih =>
    rw [places, List.mem_append, List.mem_map, List.mem_map]
    constructor
    · rintro (⟨k, -, heq⟩ | ⟨⟨k, l⟩, hkl, heq⟩) <;> cases heq
      · exact Fin.succ_pos k
      · exact Fin.succ_lt_succ_iff.mpr (ih.mp hkl)
    · intro hlt
      obtain ⟨j, rfl⟩ := Fin.exists_succ_eq.mpr (Fin.ne_zero_of_lt hlt)
      cases i using Fin.cases with
      | zero => exact .inl ⟨j, List.mem_finRange j, rfl⟩
      | succ i => exact .inr ⟨(i, j), ih.mpr (Fin.succ_lt_succ_iff.mp hlt), rfl⟩

theorem nodup_places : (places n).Nodup := by
  induction n with
  | zero => exact List.nodup_nil
  | succ n ih =>
    refine List.nodup_append'.mpr ⟨?_, ?_, fun x hx hx' ↦ ?_⟩
    · exact (List.nodup_finRange n).map fun _ _ heq ↦ Fin.succ_injective n (Prod.mk.inj heq).2
    · exact ih.map ((Fin.succ_injective n).prodMap (Fin.succ_injective n))
    · obtain ⟨j, -, rfl⟩ := List.mem_map.mp hx
      obtain ⟨⟨k, l⟩, -, heq⟩ := List.mem_map.mp hx'
      exact absurd (Prod.mk.inj heq).1 (Fin.succ_ne_zero k)

theorem length_places : (places n).length = n * (n - 1) / 2 := by
  induction n with
  | zero => rfl
  | succ n ih =>
    rw [places, List.length_append, List.length_map, List.length_map, List.length_finRange, ih,
      Nat.triangle_succ, Nat.add_comm]

/-- The pairs of a list are the members at all pairs of positions. -/
theorem pairs_eq_map_places (terms : List Expr) :
    pairs terms = (places terms.length).map fun (i, j) ↦ (terms.get i, terms.get j) := by
  induction terms with
  | nil => rfl
  | cons e rest ih =>
    have hplaces : places (e :: rest).length =
        (List.finRange rest.length).map (fun j ↦ (0, j.succ)) ++
          (places rest.length).map (Prod.map Fin.succ Fin.succ) := rfl
    have hfirst : rest.map (e, ·) = (List.finRange rest.length).map fun j ↦ (e, rest.get j) := by
      conv_lhs => rw [← List.map_get_finRange rest, List.map_map]
      rfl
    rw [pairs, ih, hfirst, hplaces, List.map_append, List.map_map, List.map_map]
    rfl

/-- An expression says of some terms that they are disjoint, for each pair of positions once: by
the bare statement of two terms, or by a conjunction of such statements. -/
def StatesPairs (name : String) (terms : List Expr) (e : Expr) : Prop :=
  ∃ places : List (Fin terms.length × Fin terms.length),
    places.Nodup ∧ (∀ i j, (i, j) ∈ places ↔ i < j) ∧
    places.length = terms.length * (terms.length - 1) / 2 ∧
    (terms.length = 2 → e = .app (name ++ "#disjoint") terms) ∧
    (2 < terms.length → e = .and (places.map fun (i, j) ↦
      .app (name ++ "#disjoint") [terms.get i, terms.get j]))

theorem disjointness_eq_conj_places (name : String) (terms : List Expr) :
    collector.disjointness name terms = .conj ((places terms.length).map fun (i, j) ↦
      .app (name ++ "#disjoint") [terms.get i, terms.get j]) := by
  show Expr.conj ((pairs terms).map _) = _
  rw [pairs_eq_map_places, List.map_map]
  rfl

theorem statesPairs_disjointness (name : String) (terms : List Expr) :
    StatesPairs name terms (collector.disjointness name terms) := by
  refine ⟨places terms.length, nodup_places, fun _ _ ↦ mem_places, length_places, fun htwo ↦ ?_,
    fun hmore ↦ ?_⟩
  · obtain ⟨a, b, rfl⟩ := List.length_eq_two.mp htwo
    rfl
  · rw [disjointness_eq_conj_places]
    refine Expr.conj_eq_and ?_
    rw [List.length_map, length_places, Nat.le_div_iff_mul_le Nat.two_pos]
    exact Nat.mul_le_mul hmore.le (Nat.le_sub_one_of_lt hmore)

theorem mem_pairs_of_mem {a b : Expr} (h : (a, b) ∈ pairs terms) : a ∈ terms ∧ b ∈ terms := by
  rw [pairs_eq_map_places] at h
  obtain ⟨⟨i, j⟩, -, heq⟩ := List.mem_map.mp h
  cases heq
  exact ⟨List.get_mem .., List.get_mem ..⟩

/-- Where there are two terms or more, each of them stands in some pair. -/
theorem exists_mem_pairs {e : Expr} (hlength : 2 ≤ terms.length) (he : e ∈ terms) :
    ∃ x ∈ pairs terms, x.1 = e ∨ x.2 = e := by
  match terms, hlength with
  | a :: b :: rest, _ =>
    have hfirst : ∀ y ∈ b :: rest, (a, y) ∈ pairs (a :: b :: rest) :=
      fun y hy ↦ List.mem_append_left _ (List.mem_map_of_mem hy)
    rcases List.mem_cons.mp he with rfl | hrest
    · exact ⟨(e, b), hfirst b List.mem_cons_self, .inl rfl⟩
    · exact ⟨(a, e), hfirst e hrest, .inr rfl⟩

/-- The statement that two terms or more are disjoint mentions the variables of the terms. -/
theorem mem_freeVars_disjointness {w : VarId} (hlength : 2 ≤ terms.length) :
    w ∈ (collector.disjointness name terms).freeVars ↔ ∃ e ∈ terms, w ∈ e.freeVars := by
  have hpairs : w ∈ (collector.disjointness name terms).freeVars ↔
      ∃ x ∈ pairs terms, w ∈ x.1.freeVars ∨ w ∈ x.2.freeVars := by
    simp [collector, Expr.mem_freeVars_conj, Expr.freeVars, Expr.freeVarsOfList]
  rw [hpairs]
  constructor
  · rintro ⟨⟨a, b⟩, hx, hw⟩
    obtain ⟨ha, hb⟩ := mem_pairs_of_mem hx
    exact hw.elim (⟨a, ha, ·⟩) (⟨b, hb, ·⟩)
  · rintro ⟨e, he, hw⟩
    obtain ⟨x, hx, rfl | rfl⟩ := exists_mem_pairs hlength he
    · exact ⟨x, hx, .inl hw⟩
    · exact ⟨x, hx, .inr hw⟩

/-- Nothing is stated of fewer than two terms, and only then. -/
theorem isTrue_iff_length :
    (collector.disjointness name terms).isTrue = true ↔ terms.length < 2 := by
  match terms with
  | [] | [_] => exact iff_of_true rfl (by simp)
  | [_, _] => exact iff_of_false Bool.false_ne_true (by simp)
  | _ :: _ :: _ :: _ => exact iff_of_false Bool.false_ne_true (by simp)

end Encoding

/-! ### Interpretations -/

/-- A reading of expressions: of terms as sets of resources and of the others as statements, with
the functions of every domain read as the operations on sets. -/
structure Interpretation (R : Type u) where
  resources : Expr → Set R
  Holds : Expr → Prop
  resources_empty : ∀ name : String, resources (.app (name ++ "#empty") []) = ∅
  resources_union : ∀ (name : String) (a b : Expr),
    resources (.app (name ++ "#union") [a, b]) = resources a ∪ resources b
  holds_disjoint : ∀ (name : String) (a b : Expr),
    Holds (.app (name ++ "#disjoint") [a, b]) ↔ Disjoint (resources a) (resources b)
  holds_lit : ∀ value : Bool, Holds (.lit value) ↔ value = true
  holds_and : ∀ parts : List Expr, Holds (.and parts) ↔ ∀ e ∈ parts, Holds e

namespace Interpretation

variable {R : Type u} {I : Interpretation R} {name : String} {terms parts : List Expr} {r : R}

theorem holds_conj : I.Holds (.conj parts) ↔ ∀ e ∈ parts, I.Holds e := by
  match parts with
  | [] => simp [I.holds_lit]
  | [e] => simp
  | _ :: _ :: _ => exact I.holds_and _

/-- Terms are disjoint as an encoding says it if no two of them have a resource in common. -/
theorem holds_disjointness : I.Holds (Encoding.collector.disjointness name terms) ↔
    terms.Pairwise fun a b ↦ Disjoint (I.resources a) (I.resources b) := by
  refine holds_conj.trans ?_
  induction terms with
  | nil => simp [Encoding.pairs]
  | cons e rest ih =>
    rw [Encoding.pairs, List.map_append, List.forall_mem_append, ih, List.pairwise_cons,
      List.map_map, List.forall_mem_map]
    exact and_congr_left fun _ ↦ forall₂_congr fun b _ ↦ I.holds_disjoint name e b

/-- A union holds the resources of its members. -/
theorem mem_resources_union : r ∈ I.resources (Encoding.collector.union name terms) ↔
    ∃ e ∈ terms, r ∈ I.resources e := by
  cases terms with
  | nil => simp [Encoding.collector, Encoding.unionWith, I.resources_empty]
  | cons e rest =>
    simp only [Encoding.collector, Encoding.unionWith]
    induction rest generalizing e with
    | nil => simp
    | cons e' rest ih =>
      rw [List.foldl_cons, ih]
      simp [I.resources_union, or_assoc]

/-- The resources of a term, given those collected for variables and those of bare variables. -/
def resourcesFrom (collected : String → VarId → Set R) (held : VarId → Set R) : Expr → Set R
  | .var v => held v
  | .app func [.var v] => {r | ∃ name, func = name ++ "#collect" ∧ r ∈ collected name v}
  | .app _ [a, b] => resourcesFrom collected held a ∪ resourcesFrom collected held b
  | _ => ∅

/-- The statements that hold where terms have given resources. -/
inductive HoldsWith (resources : Expr → Set R) : Expr → Prop
  | lit : HoldsWith resources (.lit true)
  | disjoint {func : String} {a b : Expr} (h : Disjoint (resources a) (resources b)) :
      HoldsWith resources (.app func [a, b])
  | and {parts : List Expr} (h : ∀ e ∈ parts, HoldsWith resources e) :
      HoldsWith resources (.and parts)

/-- Any sets can be assigned to the variables, as what is collected for them and as what they
stand for themselves. -/
theorem exists_interpretation (collected : String → VarId → Set R) (held : VarId → Set R) :
    ∃ I : Interpretation R,
      (∀ name v, I.resources (.app (name ++ "#collect") [.var v]) = collected name v) ∧
      ∀ v, I.resources (.var v) = held v := by
  refine ⟨⟨resourcesFrom collected held, HoldsWith (resourcesFrom collected held), fun name ↦ ?_,
    fun name a b ↦ ?_, fun name a b ↦ ⟨fun h ↦ ?_, .disjoint⟩, fun value ↦ ⟨fun h ↦ ?_, ?_⟩,
    fun parts ↦ ⟨fun h ↦ ?_, .and⟩⟩, fun name v ↦ ?_, fun v ↦ ?_⟩
  · simp [resourcesFrom]
  · rw [resourcesFrom]
  · cases h
    assumption
  · cases h
    rfl
  · rintro rfl
    exact .lit
  · cases h
    assumption
  · ext r
    simp [resourcesFrom, String.append_left_inj]
  · simp [resourcesFrom]

end Interpretation

/-! ### The predicates at a point -/

namespace Instrumenter

variable {p : Program} {t : Instrumenter} {point : Point} {globals : Bool} {scope : List VarId}
  {d : DomainId} {name : String} {v w : VarId} {e : Expr} {R : Type u} {I : Interpretation R}
  {r : R}

/-- The variables held at a point that name a domain, under their substitutes. -/
def Collects (t : Instrumenter) (point : Point) (globals : Bool) (name : String) (w : VarId) :
    Prop :=
  ∃ v, t.Within point globals v ∧ (t.checked.var? v).bind Variable.domain? = some name ∧
    t.settings.rename v = w

theorem mem_inDomain_scope_iff (hcheck : p.check = .ok t.checked)
    (hd : t.checked.registry.domain? d = some name) :
    w ∈ t.inDomain (t.scope point globals) d ↔ t.Collects point globals name w := by
  rw [mem_inDomain_of_check hcheck hd]
  simp only [mem_scope_iff]
  rfl

theorem pairwise_toList_inDomain : (t.inDomain scope d).toList.Pairwise (·.index < ·.index) :=
  Std.ExtTreeSet.ordered_toList.imp Ident.compare_eq_lt_iff.mp

theorem terms_eq (hcheck : p.check = .ok t.checked) : t.terms scope d name =
    (t.inDomain scope d).toList.map (fun w ↦ .app (name ++ "#collect") [.var w]) ++
      (t.settings.hole? d).toList.map .var := by
  rw [terms, permissions, encoding_of_check hcheck]
  rfl

/-- The terms of a domain are what is collected for its variables, in ascending order, and its
hole. -/
theorem exists_terms_eq (hcheck : p.check = .ok t.checked)
    (hd : t.checked.registry.domain? d = some name) :
    ∃ vars : List VarId, vars.Pairwise (·.index < ·.index) ∧
      (∀ w, w ∈ vars ↔ t.Collects point globals name w) ∧
      t.terms (t.scope point globals) d name =
        vars.map (fun w ↦ .app (name ++ "#collect") [.var w]) ++
          (t.settings.hole? d).toList.map .var := by
  refine ⟨_, pairwise_toList_inDomain, fun w ↦ ?_, terms_eq hcheck⟩
  rw [Std.ExtTreeSet.mem_toList, mem_inDomain_scope_iff hcheck hd]

/-- The predicates over a scope with the domains that they are about. -/
def stated (t : Instrumenter) (scope : List VarId) : List (DomainId × Expr) :=
  (t.checked.registry.entries.map fun (d, name) ↦
    (d, t.checked.registry.encoding.disjointness name (t.terms scope d name))).filter (!·.2.isTrue)

theorem disjointness_eq_map_stated : t.disjointness scope = (t.stated scope).map Prod.snd := by
  unfold disjointness predicates stated
  rw [List.filter_map, List.filter_map, List.map_map]
  rfl

/-- Domains come in ascending order. -/
theorem pairwise_stated : ((t.stated scope).map Prod.fst).Pairwise (·.index < ·.index) := by
  have hsublist : ((t.stated scope).map Prod.fst).Sublist
      (t.checked.registry.entries.map Prod.fst) := by
    have hfirst : t.checked.registry.entries.map Prod.fst =
        (t.checked.registry.entries.map fun (d, name) ↦
          (d, t.checked.registry.encoding.disjointness name (t.terms scope d name))).map
            Prod.fst := by
      rw [List.map_map]
      rfl
    rw [hfirst]
    exact List.filter_sublist.map _
  rw [Registry.map_fst_entries] at hsublist
  refine List.Pairwise.sublist hsublist (List.pairwise_map.mpr ?_)
  exact List.pairwise_lt_range

/-- There is a predicate about each domain that has two terms or more. -/
theorem mem_stated (hcheck : p.check = .ok t.checked) :
    (d, e) ∈ t.stated scope ↔ ∃ name, t.checked.registry.domain? d = some name ∧
      2 ≤ (t.terms scope d name).length ∧
      e = Encoding.collector.disjointness name (t.terms scope d name) := by
  unfold stated
  rw [encoding_of_check hcheck, List.mem_filter, List.mem_map]
  constructor
  · rintro ⟨⟨⟨d, name⟩, hentry, heq⟩, hstated⟩
    cases heq
    rw [Bool.not_eq_true', ← Bool.not_eq_true, Encoding.isTrue_iff_length, Nat.not_lt] at hstated
    exact ⟨name, Registry.mem_entries.mp hentry, hstated, rfl⟩
  · rintro ⟨name, hname, hlength, rfl⟩
    refine ⟨⟨(d, name), Registry.mem_entries.mpr hname, rfl⟩, ?_⟩
    rwa [Bool.not_eq_true', ← Bool.not_eq_true, Encoding.isTrue_iff_length, Nat.not_lt]

/-- The domains with a predicate are those that have two terms or more. -/
theorem mem_map_fst_stated (hcheck : p.check = .ok t.checked) :
    d ∈ (t.stated scope).map Prod.fst ↔ ∃ name, t.checked.registry.domain? d = some name ∧
      2 ≤ (t.terms scope d name).length := by
  rw [List.mem_map]
  constructor
  · rintro ⟨⟨d, e⟩, hstated, rfl⟩
    obtain ⟨name, hname, hlength, -⟩ := (mem_stated hcheck).mp hstated
    exact ⟨name, hname, hlength⟩
  · rintro ⟨name, hname, hlength⟩
    exact ⟨(d, _), (mem_stated hcheck).mpr ⟨name, hname, hlength, rfl⟩, rfl⟩

/-- The predicates at a point with the domains that they are about. -/
def statedAt (t : Instrumenter) (point : Point) (globals : Bool) : List (DomainId × Expr) :=
  t.stated (t.scope point globals)

theorem disjointnessAt_eq_map_statedAt :
    t.disjointnessAt point globals = (t.statedAt point globals).map Prod.snd :=
  disjointness_eq_map_stated

theorem pairwise_statedAt :
    ((t.statedAt point globals).map Prod.fst).Pairwise (·.index < ·.index) :=
  pairwise_stated

theorem mem_statedAt (hcheck : p.check = .ok t.checked) :
    (d, e) ∈ t.statedAt point globals ↔ ∃ name, t.checked.registry.domain? d = some name ∧
      2 ≤ (t.terms (t.scope point globals) d name).length ∧
      e = Encoding.collector.disjointness name (t.terms (t.scope point globals) d name) :=
  mem_stated hcheck

/-- The predicates at a point hold if and only if the terms of every domain are disjoint. -/
theorem forall_holds_iff (hcheck : p.check = .ok t.checked) :
    (∀ e ∈ t.disjointnessAt point globals, I.Holds e) ↔
      ∀ d name, t.checked.registry.domain? d = some name →
        (t.terms (t.scope point globals) d name).Pairwise
          fun a b ↦ Disjoint (I.resources a) (I.resources b) := by
  rw [disjointnessAt_eq_map_statedAt, List.forall_mem_map]
  constructor
  · intro h d name hname
    have hholds : I.Holds
        (Encoding.collector.disjointness name (t.terms (t.scope point globals) d name)) := by
      by_cases hlength : 2 ≤ (t.terms (t.scope point globals) d name).length
      · exact h (d, _) ((mem_statedAt hcheck).mpr ⟨name, hname, hlength, rfl⟩)
      · -- With fewer than two terms there is no predicate, and nothing to keep apart.
        rw [Encoding.collector_disjointness_of_length_lt_two (Nat.not_le.mp hlength)]
        exact (I.holds_lit true).mpr rfl
    exact Interpretation.holds_disjointness.mp hholds
  · rintro h ⟨d, e⟩ hstated
    obtain ⟨name, hname, -, rfl⟩ := (mem_statedAt hcheck).mp hstated
    exact Interpretation.holds_disjointness.mpr (h d name hname)

/-- The union written for a domain denotes what is collected for its variables. -/
theorem mem_resources_permissionUnion (hcheck : p.check = .ok t.checked)
    (hd : t.checked.registry.domain? d = some name) (he : (d, e) ∈ t.permissionUnions point) :
    r ∈ I.resources e ↔ ∃ w, t.Collects point true name w ∧
      r ∈ I.resources (.app (name ++ "#collect") [.var w]) := by
  rw [(mem_permissionUnions_of_domain? hd).mp he, permissions, encoding_of_check hcheck,
    Interpretation.mem_resources_union]
  constructor
  · rintro ⟨term, hterm, hr⟩
    obtain ⟨w, hw, rfl⟩ := List.mem_map.mp hterm
    exact ⟨w, (mem_inDomain_scope_iff hcheck hd).mp (Std.ExtTreeSet.mem_toList.mp hw), hr⟩
  · rintro ⟨w, hw, hr⟩
    exact ⟨_, List.mem_map_of_mem (Std.ExtTreeSet.mem_toList.mpr
      ((mem_inDomain_scope_iff hcheck hd).mpr hw)), hr⟩

/-- In an accepted program the terms of a domain at a point are what is collected for the
substitutes of its variables, in ascending order, followed by its hole if it has one. There is one
predicate for each domain with two terms or more, in ascending order of domains, and it states
disjointness of each pair of terms once. Whatever sets the terms denote, all predicates hold if and
only if the terms of every domain, also of those without a predicate, are disjoint from each other;
and the union of permissions of a domain denotes what is collected for its variables. -/
theorem disjointnessAt_states_disjoint (p : Program) (t : Instrumenter)
    (hcheck : p.check = .ok t.checked) (point : Point) (globals : Bool) :
    (∀ d name, t.checked.registry.domain? d = some name →
      ∃ vars : List VarId, vars.Pairwise (·.index < ·.index) ∧
        (∀ w, w ∈ vars ↔ t.Collects point globals name w) ∧
        t.terms (t.scope point globals) d name =
          vars.map (fun w ↦ .app (name ++ "#collect") [.var w]) ++
            (t.settings.hole? d).toList.map .var) ∧
    (∃ stated : List (DomainId × Expr),
      t.disjointnessAt point globals = stated.map Prod.snd ∧
      (stated.map Prod.fst).Pairwise (·.index < ·.index) ∧
      (∀ d, d ∈ stated.map Prod.fst ↔ ∃ name, t.checked.registry.domain? d = some name ∧
        2 ≤ (t.terms (t.scope point globals) d name).length) ∧
      ∀ d e name, (d, e) ∈ stated → t.checked.registry.domain? d = some name →
        Encoding.StatesPairs name (t.terms (t.scope point globals) d name) e) ∧
    ∀ (R : Type u) (I : Interpretation R),
      ((∀ e ∈ t.disjointnessAt point globals, I.Holds e) ↔
        ∀ d name, t.checked.registry.domain? d = some name →
          (t.terms (t.scope point globals) d name).Pairwise
            fun a b ↦ Disjoint (I.resources a) (I.resources b)) ∧
      ∀ d name e, t.checked.registry.domain? d = some name →
        (d, e) ∈ t.permissionUnions point → ∀ r, r ∈ I.resources e ↔
          ∃ w, t.Collects point true name w ∧
            r ∈ I.resources (.app (name ++ "#collect") [.var w]) := by
  refine ⟨fun d name hd ↦ exists_terms_eq hcheck hd, ⟨t.statedAt point globals,
    disjointnessAt_eq_map_statedAt, pairwise_statedAt, fun d ↦ ?_, fun d e name he hname ↦ ?_⟩,
    fun R I ↦ ⟨forall_holds_iff hcheck, fun d name e hd he r ↦
      mem_resources_permissionUnion hcheck hd he⟩⟩
  · rw [List.mem_map]
    constructor
    · rintro ⟨⟨d, e⟩, hstated, rfl⟩
      obtain ⟨name, hname, hlength, -⟩ := (mem_statedAt hcheck).mp hstated
      exact ⟨name, hname, hlength⟩
    · rintro ⟨name, hname, hlength⟩
      exact ⟨(d, _), (mem_statedAt hcheck).mpr ⟨name, hname, hlength, rfl⟩, rfl⟩
  · obtain ⟨name', hname', -, rfl⟩ := (mem_statedAt hcheck).mp he
    cases hname.symm.trans hname'
    exact Encoding.statesPairs_disjointness name _

/-- A pass over variables of two domains, in which the domain of the single one has a hole. -/
def lender : Instrumenter :=
  { keeper with
    settings := ⟨0, (∅ : Std.ExtTreeMap DomainId VarId).insert ⟨0⟩ ⟨9⟩, keeper.settings.renames⟩ }

theorem disjointnessAt_states_disjoint_taking : holders.check = .ok lender.checked ∧
    lender.terms (lender.scope (.procedure taking) true) ⟨0⟩ "Lock" =
      [.app ("Lock" ++ "#collect") [.var ⟨1⟩], .var ⟨9⟩] ∧
    ∃ I : Interpretation VarId, I.resources (.var ⟨9⟩) = {⟨9⟩} ∧
      ∀ e ∈ lender.disjointnessAt (.procedure taking) true, I.Holds e := by
  have hentries : lender.checked.registry.entries = [(⟨0⟩, "Lock"), (⟨1⟩, "Token")] := by
    decide +kernel
  have hlock : lender.terms (lender.scope (.procedure taking) true) ⟨0⟩ "Lock" =
      [.app ("Lock" ++ "#collect") [.var ⟨1⟩], .var ⟨9⟩] := by decide +kernel
  have htoken : lender.terms (lender.scope (.procedure taking) true) ⟨1⟩ "Token" =
      [.app ("Token" ++ "#collect") [.var ⟨2⟩], .app ("Token" ++ "#collect") [.var ⟨7⟩]] := by
    decide +kernel
  obtain ⟨I, hcollected, hheld⟩ :=
    Interpretation.exists_interpretation (fun _ v ↦ ({v} : Set VarId)) fun v ↦ {v}
  obtain ⟨-, -, hmeaning⟩ :=
    disjointnessAt_states_disjoint holders lender rfl (.procedure taking) true
  refine ⟨rfl, hlock, I, hheld ⟨9⟩, (hmeaning VarId I).1.mpr fun d name hd ↦ ?_⟩
  have hmem := Registry.mem_entries.mpr hd
  rw [hentries] at hmem
  rcases List.mem_pair.mp hmem with heq | heq <;> cases heq
  · rw [hlock, List.pairwise_pair, hcollected, hheld, Set.disjoint_singleton]
    decide
  · rw [htoken, List.pairwise_pair, hcollected, hcollected, Set.disjoint_singleton]
    decide

end Instrumenter

end OwnershipFlow
