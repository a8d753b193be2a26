import OwnershipFlow.Proofs.Preservation

/-!
# Merging the tables of implementations in parallel

The registry merges one table for each implementation. A parallel run keeps the implementations in
ascending order, but combines neighbouring results in whatever brackets it happens to, and may start
any of these from an empty table (`Bracketing`). Since a union is associative and the empty table is
neutral for it, none of this shows in the result (`Bracketing.combine_eq_foldl`): every plan gives
the table of the registry (`merge_eq_allAvailable`).

In that table the implementation that counts at a point is the last one whose own table has the
point (`IsLatest`), and nothing is lost: a point without an entry is in no table. So where the
points of all implementations are distinct, each of them finds what its own analysis has found
(`merge_eq_latest`).
-/

set_option autoImplicit false
set_option relaxedAutoImplicit false

namespace OwnershipFlow

/-! ### Plans -/

/-- A way to combine members in their order: in brackets, with neutral elements put in anywhere. -/
inductive Bracketing (α : Type)
  | neutral
  | single (a : α)
  | join (first second : Bracketing α)

namespace Bracketing

variable {α β : Type} {op : β → β → β} {unit x : β} {f : α → β} {plan : Bracketing α}

/-- What is combined, in order. -/
def members : Bracketing α → List α
  | neutral => []
  | single a => [a]
  | join first second => first.members ++ second.members

/-- Combines the results for the members as planned. -/
def combine (op : β → β → β) (unit : β) (f : α → β) : Bracketing α → β
  | neutral => unit
  | single a => f a
  | join first second => op (first.combine op unit f) (second.combine op unit f)

variable [Std.Associative op] [Std.LawfulIdentity op unit]

/-- Going on from a result with the members of a plan, one by one, is going on with what the plan
makes of them. -/
theorem foldl_members (plan : Bracketing α) (x : β) :
    (plan.members.map f).foldl op x = op x (plan.combine op unit f) := by
  induction plan generalizing x with
  | neutral => exact (Std.LawfulRightIdentity.right_id x).symm
  | single a => rfl
  | join first second hfirst hsecond =>
    rw [members, List.map_append, List.foldl_append, hfirst, hsecond, combine]
    exact Std.Associative.assoc x _ _

/-- All plans for the same members have the same result. -/
theorem combine_eq_foldl (plan : Bracketing α) :
    plan.combine op unit f = (plan.members.map f).foldl op unit := by
  rw [foldl_members]
  exact (Std.LawfulLeftIdentity.left_id _).symm

end Bracketing

namespace Program

variable {p : Program} {plan : Bracketing (ImplId × Implementation)} {id : ImplId}
  {imp : Implementation} {n : Node} {held : VarSet}

/-- A plan takes every implementation of the program once, in ascending order. -/
structure Plans (p : Program) (plan : Bracketing (ImplId × Implementation)) : Prop where
  mem_iff : ∀ id imp, (id, imp) ∈ plan.members ↔ p.implementations[id]? = some imp
  ascending : plan.members.Pairwise (·.1.index < ·.1.index)

/-- The tables of implementations, merged as planned. -/
def merge (p : Program) (plan : Bracketing (ImplId × Implementation)) : Availability.Table :=
  plan.combine (· ∪ ·) ∅ fun (_, imp) ↦ p.availability imp

/-- The implementation with the greatest identifier among those whose table has an entry for a
point. -/
structure IsLatest (p : Program) (n : Node) (id : ImplId) (imp : Implementation) : Prop where
  mem : p.implementations[id]? = some imp
  has : n ∈ p.availability imp
  greatest : ∀ (id' : ImplId) imp', p.implementations[id']? = some imp' →
    n ∈ p.availability imp' → id'.index ≤ id.index

theorem ascending_implementations :
    p.implementations.toList.Pairwise (·.1.index < ·.1.index) :=
  Std.ExtTreeMap.ordered_keys_toList.imp Ident.compare_eq_lt_iff.mp

/-- A plan takes the implementations as the program lists them. -/
theorem plans_iff : p.Plans plan ↔ plan.members = p.implementations.toList := by
  have hnodup : ∀ {l : List (ImplId × Implementation)}, l.Pairwise (·.1.index < ·.1.index) →
      l.Nodup := fun hl ↦ hl.imp fun hlt heq ↦ (heq ▸ hlt).false
  constructor
  · intro h
    refine List.Perm.eq_of_pairwise (fun a b _ _ hab hba ↦ (hab.asymm hba).elim) h.ascending
      ascending_implementations ?_
    refine (List.perm_ext_iff_of_nodup (hnodup h.ascending)
      (hnodup ascending_implementations)).mpr fun x ↦ ?_
    rw [h.mem_iff x.1 x.2, Std.ExtTreeMap.mem_toList_iff_getElem?_eq_some]
  · intro h
    refine ⟨fun id imp ↦ ?_, h ▸ ascending_implementations⟩
    rw [h, Std.ExtTreeMap.mem_toList_iff_getElem?_eq_some]

/-- However the tables are merged, the registry is the same. -/
theorem merge_eq_allAvailable (h : p.Plans plan) : p.merge plan = p.allAvailable := by
  unfold merge allAvailable
  rw [Bracketing.combine_eq_foldl, plans_iff.mp h, values_eq_map_snd_toList, List.map_map]
  rfl

/-! ### The merged table -/

theorem getElem?_allAvailable_eq_findSome? : p.allAvailable[n]? =
    p.implementations.toList.reverse.findSome? fun x ↦ (p.availability x.2)[n]? := by
  unfold allAvailable
  rw [getElem?_foldl_union_eq_findSome?, Std.ExtTreeMap.getElem?_empty, Option.or_none,
    values_eq_map_snd_toList, ← List.map_reverse, ← List.map_reverse, List.findSome?_map,
    List.findSome?_map]
  rfl

/-- A point without an entry is in none of the tables. -/
theorem getElem?_allAvailable_eq_none_iff : p.allAvailable[n]? = none ↔
    ∀ (id : ImplId) imp, p.implementations[id]? = some imp → n ∉ p.availability imp := by
  rw [getElem?_allAvailable_eq_findSome?, List.findSome?_eq_none_iff]
  simp only [List.mem_reverse, Std.ExtTreeMap.mem_iff_isSome_getElem?, Bool.not_eq_true,
    Option.isSome_eq_false_iff, Option.isNone_iff_eq_none, Prod.forall,
    Std.ExtTreeMap.mem_toList_iff_getElem?_eq_some]

/-- An entry is that of the latest implementation that has the point. -/
theorem exists_isLatest (h : p.allAvailable[n]? = some held) :
    ∃ (id : ImplId) (imp : Implementation),
      p.IsLatest n id imp ∧ (p.availability imp)[n]? = some held := by
  rw [getElem?_allAvailable_eq_findSome?] at h
  -- The implementations are searched from the last one, so those after the one found have no entry.
  obtain ⟨after, ⟨id, imp⟩, before, hsplit, hheld, hafter⟩ := List.findSome?_eq_some_iff.mp h
  have hlist : p.implementations.toList = before.reverse ++ (id, imp) :: after.reverse := by
    rw [← List.reverse_reverse p.implementations.toList, hsplit, List.reverse_append,
      List.reverse_cons, List.append_assoc, List.singleton_append]
  have hascending := ascending_implementations (p := p)
  rw [hlist, List.pairwise_append] at hascending
  refine ⟨id, imp, ⟨?_, ?_, fun id' imp' himp' hin ↦ ?_⟩, hheld⟩
  · exact Std.ExtTreeMap.mem_toList_iff_getElem?_eq_some.mp (hlist ▸ by simp)
  · exact Std.ExtTreeMap.mem_iff_isSome_getElem?.mpr (Option.isSome_iff_exists.mpr ⟨held, hheld⟩)
  · have hmem := Std.ExtTreeMap.mem_toList_iff_getElem?_eq_some.mpr himp'
    rw [hlist, List.mem_append, List.mem_cons] at hmem
    rcases hmem with hbefore | heq | hlater
    · exact (hascending.2.2 _ hbefore _ List.mem_cons_self).le
    · exact (congrArg (·.1.index) heq).le
    · have hnone := hafter (id', imp') (List.mem_reverse.mp hlater)
      rw [Std.ExtTreeMap.mem_iff_isSome_getElem?, hnone] at hin
      cases hin

/-- Only one implementation is the latest that has a point. -/
theorem IsLatest.unique {id' : ImplId} {imp' : Implementation} (h : p.IsLatest n id imp)
    (h' : p.IsLatest n id' imp') : imp = imp' := by
  obtain rfl : id = id' := Ident.ext
    (Nat.le_antisymm (h'.greatest id imp h.mem h.has) (h.greatest id' imp' h'.mem h'.has))
  exact Option.some.inj (h.mem.symm.trans h'.mem)

theorem getElem?_allAvailable_eq_some_iff : p.allAvailable[n]? = some held ↔
    ∃ (id : ImplId) (imp : Implementation),
      p.IsLatest n id imp ∧ (p.availability imp)[n]? = some held := by
  refine ⟨exists_isLatest, ?_⟩
  rintro ⟨id, imp, hlatest, hheld⟩
  obtain ⟨held', hheld'⟩ : ∃ held', p.allAvailable[n]? = some held' := by
    refine Option.ne_none_iff_exists'.mp fun hnone ↦ ?_
    exact getElem?_allAvailable_eq_none_iff.mp hnone id imp hlatest.mem hlatest.has
  obtain ⟨id', imp', hlatest', hentry⟩ := exists_isLatest hheld'
  rw [hheld', ← hentry, hlatest'.unique hlatest, hheld]

/-- The merge of all tables does not depend on how it is carried out, and loses nothing: at each
point it has the entry of the latest implementation that has one. Where the blocks and the commands
of all implementations are distinct, what is available at the points of an implementation is what
its own analysis has found. -/
theorem merge_eq_latest (p : Program) (plan : Bracketing (ImplId × Implementation))
    (hplan : p.Plans plan) :
    p.merge plan = p.registry.available ∧
    (∀ n held, (p.merge plan)[n]? = some held ↔ ∃ (id : ImplId) (imp : Implementation),
      p.IsLatest n id imp ∧ (p.availability imp)[n]? = some held) ∧
    (∀ n, (p.merge plan)[n]? = none ↔
      ∀ (id : ImplId) imp, p.implementations[id]? = some imp → n ∉ p.availability imp) ∧
    (p.flowNodes.Nodup → ∀ (id : ImplId) imp, p.implementations[id]? = some imp →
      ∀ n ∈ imp.nodes, (p.merge plan)[n]? = (p.availability imp)[n]? ∧
        Registry.availableAt { p.registry with available := p.merge plan } n =
          ((p.availability imp)[n]?).getD ∅) := by
  rw [merge_eq_allAvailable hplan]
  refine ⟨rfl, fun n held ↦ getElem?_allAvailable_eq_some_iff,
    fun n ↦ getElem?_allAvailable_eq_none_iff, fun hnodup id imp himp n hn ↦ ?_⟩
  have heq := getElem?_allAvailable_of_mem_nodes hnodup himp hn
  refine ⟨heq, ?_⟩
  rw [← heq, Registry.availableAt, Std.ExtTreeMap.getD_eq_getD_getElem?]

/-- An implementation that shares the identifiers of a block and a command with `patrol`, but gains
one variable only. -/
def stray : Implementation where
  id := ⟨1⟩
  procedure := ⟨0⟩
  name := "stray"
  ins := []
  outs := []
  locals := [⟨0⟩]
  blocks := [⟨⟨1⟩, "only", [⟨⟨1⟩, .zero, .assign [⟨0⟩] []⟩], .ret, [], .zero⟩]
  span := .zero

/-- A plan for both that puts in neutral elements. -/
def scattered : Bracketing (ImplId × Implementation) :=
  .join (.join .neutral (.single (⟨0⟩, patrol))) (.join (.single (⟨1⟩, stray)) .neutral)

theorem merge_eq_latest_scattered :
    (patrolling.putImplementation stray).Plans scattered ∧
    ((patrolling.putImplementation stray).merge scattered)[Node.command ⟨1⟩]? =
      some {⟨0⟩} ∧
    patrolling.Plans (.join .neutral (.single (⟨0⟩, patrol))) ∧ patrolling.flowNodes.Nodup ∧
    Registry.availableAt
        { patrolling.registry with
          available := patrolling.merge (.join .neutral (.single (⟨0⟩, patrol))) }
        (.command ⟨1⟩) =
      ((patrolling.availability patrol)[Node.command ⟨1⟩]?).getD ∅ := by
  have hboth : (patrolling.putImplementation stray).Plans scattered :=
    plans_iff.mpr (by decide +kernel)
  have hsingle : patrolling.Plans (.join .neutral (.single (⟨0⟩, patrol))) :=
    plans_iff.mpr (by decide +kernel)
  have hlatest : (patrolling.putImplementation stray).IsLatest (.command ⟨1⟩) ⟨1⟩ stray := by
    refine ⟨by decide +kernel, by decide +kernel, fun id imp himp _ ↦ ?_⟩
    have hmem := (hboth.mem_iff id imp).mpr himp
    revert hmem
    simp only [scattered, Bracketing.members, List.nil_append, List.append_nil,
      List.singleton_append, List.mem_cons, Prod.mk.injEq, List.not_mem_nil, or_false]
    rintro (⟨rfl, -⟩ | ⟨rfl, -⟩) <;> decide
  obtain ⟨-, hentry, -, -⟩ := merge_eq_latest (patrolling.putImplementation stray) scattered hboth
  obtain ⟨-, -, -, halone⟩ := merge_eq_latest patrolling _ hsingle
  exact ⟨hboth, (hentry _ _).mpr ⟨⟨1⟩, stray, hlatest, by decide +kernel⟩, hsingle,
    by decide +kernel,
    (halone (by decide +kernel) ⟨0⟩ patrol (by decide +kernel) (.command ⟨1⟩) (by decide)).2⟩

end Program

end OwnershipFlow
