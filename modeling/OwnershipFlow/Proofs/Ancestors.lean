import Mathlib.Data.List.Nodup
import Mathlib.Data.List.Perm.Subperm
import OwnershipFlow.FlowGraph.Dominators
import OwnershipFlow.Proofs.Collections

/-!
# Ancestors in a tree of parents

The parents that the iteration for dominators has found so far form a tree under the entry
(`IsTree`). The blocks met on the way up from a block are its ancestors (`Ancestor`). Climbing
from two blocks ends at the block whose ancestors are the common ones (`climb_spec`), and joining
any number of blocks in this way ends at the block whose ancestors they all share
(`common?_spec`).

When a block is moved to another parent, the blocks before it keep their ancestors
(`ancestor_insert_iff`), and no block loses an ancestor that does not lie before the moved block
(`ancestor_insert_or`). If the new parent is an ancestor of the old one, no block gains any
(`ancestor_of_insert`).
-/

set_option autoImplicit false
set_option relaxedAutoImplicit false

namespace OwnershipFlow.Dominators

variable {order : List BlockId} {entry : BlockId} {parents : Parents} {a b c m x y : BlockId}

/-! ### Ancestors -/

/-- A block is met on the way up from another, which counts as met itself. -/
inductive Ancestor (parents : Parents) : BlockId → BlockId → Prop
  | refl (b : BlockId) : Ancestor parents b b
  | up {a b c : BlockId} (parent : parents[b]? = some c) (rest : Ancestor parents a c) :
      Ancestor parents a b

/-- The parents form a tree under the entry, and lie before their children in an order. -/
structure IsTree (order : List BlockId) (entry : BlockId) (parents : Parents) : Prop where
  root : parents[entry]? = some entry
  mem_order : ∀ b ∈ parents, b ∈ order
  rises : ∀ b c, parents[b]? = some c → b ≠ entry → c ∈ parents ∧ order.idxOf c < order.idxOf b

namespace Ancestor

theorem trans (hab : Ancestor parents a b) (hbc : Ancestor parents b c) : Ancestor parents a c := by
  induction hbc with
  | refl => exact hab
  | up hparent _ ih => exact .up hparent ih

/-- The ancestors of one block lie on one line. -/
theorem total (ha : Ancestor parents a x) (hb : Ancestor parents b x) :
    Ancestor parents a b ∨ Ancestor parents b a := by
  induction ha with
  | refl => exact Or.inr hb
  | up hparent hrest ih =>
    cases hb with
    | refl => exact Or.inl (.up hparent hrest)
    | up hparent' hrest' =>
      rw [hparent] at hparent'
      obtain rfl := Option.some.inj hparent'
      exact ih hrest'

variable (htree : IsTree order entry parents)

include htree

theorem mem (h : Ancestor parents a b) (hb : b ∈ parents) : a ∈ parents := by
  induction h with
  | refl => exact hb
  | @up b c hparent _ ih =>
    by_cases hentry : b = entry
    · subst hentry
      rw [htree.root] at hparent
      exact ih (Option.some.inj hparent ▸ hb)
    · exact ih (htree.rises _ _ hparent hentry).1

/-- Only the entry is an ancestor of the entry. -/
theorem eq_entry (h : Ancestor parents a b) (hb : b = entry) : a = entry := by
  induction h with
  | refl => exact hb
  | up hparent _ ih =>
    subst hb
    rw [htree.root] at hparent
    exact ih (Option.some.inj hparent).symm

theorem idxOf_le (h : Ancestor parents a b) : order.idxOf a ≤ order.idxOf b := by
  induction h with
  | refl => exact Nat.le_refl _
  | @up b c hparent _ ih =>
    by_cases hentry : b = entry
    · subst hentry
      rw [htree.root] at hparent
      exact Option.some.inj hparent ▸ ih
    · have := (htree.rises _ _ hparent hentry).2
      omega

end Ancestor

/-- Ancestors depend only on the parents of blocks up to the one at which the way starts. -/
theorem Ancestor.congr {other : Parents} (htree : IsTree order entry parents)
    (h : Ancestor parents a x)
    (hsame : ∀ y, order.idxOf y ≤ order.idxOf x → other[y]? = parents[y]?) :
    Ancestor other a x := by
  induction h with
  | refl => exact .refl _
  | up hparent hrest ih =>
    have hle := (Ancestor.up hparent (.refl _)).idxOf_le htree
    have hsame' := fun y hy ↦ hsame y (Nat.le_trans hy hle)
    refine .up ((hsame _ (Nat.le_refl _)).trans hparent) (ih hsame')

/-! ### Common ancestors -/

theorem idxOf_entry (hhead : order.head? = some entry) : order.idxOf entry = 0 := by
  cases order with
  | nil => simp at hhead
  | cons x rest =>
    obtain rfl := Option.some.inj hhead
    exact List.idxOf_cons_self

theorem ne_entry_of_idxOf_lt (hhead : order.head? = some entry)
    (h : order.idxOf b < order.idxOf a) : a ≠ entry := by
  rintro rfl
  rw [idxOf_entry hhead] at h
  exact Nat.not_lt_zero _ h

/-- An ancestor of an earlier block is met on the way up from a block or from its parent alike. -/
theorem ancestor_parent_iff (htree : IsTree order entry parents) (hparent : parents[a]? = some m)
    (hlt : order.idxOf b < order.idxOf a) (hcb : Ancestor parents c b) :
    Ancestor parents c m ↔ Ancestor parents c a := by
  constructor
  · exact fun hcm ↦ .up hparent hcm
  · intro hca
    cases hca with
    | refl =>
      have := hcb.idxOf_le htree
      omega
    | up hparent' hrest =>
      rw [hparent] at hparent'
      exact Option.some.inj hparent' ▸ hrest

section Common

variable (hhead : order.head? = some entry) (htree : IsTree order entry parents)

include hhead htree

/-- A block of the tree behind another has a parent before it. -/
theorem exists_parent (ha : a ∈ parents) (hlt : order.idxOf b < order.idxOf a) :
    ∃ p, parents[a]? = some p ∧ p ≠ a ∧ p ∈ parents ∧ order.idxOf p < order.idxOf a := by
  obtain ⟨p, hp⟩ := Option.isSome_iff_exists.mp (Std.ExtTreeMap.mem_iff_isSome_getElem?.mp ha)
  obtain ⟨hmem, hless⟩ := htree.rises a p hp (ne_entry_of_idxOf_lt hhead hlt)
  refine ⟨p, hp, ?_, hmem, hless⟩
  rintro rfl
  exact Nat.lt_irrefl _ hless

/-- Two blocks of the tree meet, at the block whose ancestors are the ancestors of both. -/
theorem climb_spec {fuel : Nat} (ha : a ∈ parents) (hb : b ∈ parents)
    (hfuel : order.idxOf a + order.idxOf b ≤ fuel) :
    ∃ m, climb order.idxOf parents fuel a b = .met m ∧
      ∀ c, Ancestor parents c m ↔ Ancestor parents c a ∧ Ancestor parents c b := by
  induction fuel generalizing a b with
  | zero =>
    have hab : a = b := by
      rw [← List.idxOf_inj (htree.mem_order a ha)]
      omega
    subst hab
    exact ⟨a, climb_self _ _ _ _, fun c ↦ and_self_iff.symm⟩
  | succ fuel ih =>
    rw [climb]
    by_cases hab : a = b
    · subst hab
      exact ⟨a, if_pos rfl, fun c ↦ and_self_iff.symm⟩
    · have hne : order.idxOf a ≠ order.idxOf b :=
        fun heq ↦ hab ((List.idxOf_inj (htree.mem_order a ha)).mp heq)
      rcases Nat.lt_or_gt_of_ne hne with hlt | hlt
      · obtain ⟨p, hp, hpb, hmem, hless⟩ := exists_parent hhead htree hb hlt
        obtain ⟨m, hm, hcommon⟩ := ih ha hmem (by omega)
        refine ⟨m, by simpa [hab, hlt, Nat.lt_asymm hlt, hp, hpb] using hm, fun c ↦ ?_⟩
        rw [hcommon c]
        exact and_congr_right (ancestor_parent_iff htree hp hlt)
      · obtain ⟨p, hp, hpa, hmem, hless⟩ := exists_parent hhead htree ha hlt
        obtain ⟨m, hm, hcommon⟩ := ih hmem hb (by omega)
        refine ⟨m, by simpa [hab, hlt, hp, hpa] using hm, fun c ↦ ?_⟩
        rw [hcommon c]
        exact and_congr_left (ancestor_parent_iff htree hp hlt)

theorem meet_spec (ha : a ∈ parents) (hb : b ∈ parents) :
    ∃ m, meet order.idxOf parents a b = .met m ∧
      ∀ c, Ancestor parents c m ↔ Ancestor parents c a ∧ Ancestor parents c b :=
  climb_spec hhead htree ha hb (Nat.le_refl _)

/-- Joining more blocks to a block of the tree gives the block whose ancestors they all share. -/
theorem foldl_common_spec (blocks : List BlockId) (ha : a ∈ parents) :
    ∃ m, blocks.foldl (fun best b ↦ if b ∈ parents then
        some (best.elim b fun current ↦ (meet order.idxOf parents b current).block)
      else best) (some a) = some m ∧
      ∀ c, Ancestor parents c m ↔
        Ancestor parents c a ∧ ∀ b ∈ blocks, b ∈ parents → Ancestor parents c b := by
  induction blocks generalizing a with
  | nil => exact ⟨a, rfl, fun c ↦ by simp⟩
  | cons b rest ih =>
    rw [List.foldl_cons]
    by_cases hb : b ∈ parents
    · obtain ⟨x, hx, hmeet⟩ := meet_spec hhead htree hb ha
      obtain ⟨m, hm, hcommon⟩ := ih (((hmeet x).mp (.refl x)).1.mem htree hb)
      rw [if_pos hb, Option.elim_some, hx]
      refine ⟨m, hm, fun c ↦ ?_⟩
      rw [hcommon, hmeet, List.forall_mem_cons, and_comm (a := Ancestor parents c b), and_assoc]
      simp only [hb, forall_const]
    · obtain ⟨m, hm, hcommon⟩ := ih ha
      rw [if_neg hb]
      refine ⟨m, hm, fun c ↦ ?_⟩
      rw [hcommon, List.forall_mem_cons]
      simp only [hb, false_implies, true_and]

/-- The ancestors of the common ancestor of blocks are those that the blocks have in common. -/
theorem common?_spec {blocks : List BlockId} (hin : x ∈ blocks) (hx : x ∈ parents) :
    ∃ m, common? order.idxOf parents blocks = some m ∧
      ∀ c, Ancestor parents c m ↔ ∀ b ∈ blocks, b ∈ parents → Ancestor parents c b := by
  induction blocks with
  | nil => exact absurd hin List.not_mem_nil
  | cons b rest ih =>
    by_cases hb : b ∈ parents
    · obtain ⟨m, hm, hcommon⟩ := foldl_common_spec hhead htree rest hb
      refine ⟨m, ?_, fun c ↦ ?_⟩
      · rw [common?, List.foldl_cons, if_pos hb]
        exact hm
      · rw [hcommon, List.forall_mem_cons]
        simp only [hb, forall_const]
    · obtain ⟨m, hm, hcommon⟩ :=
        ih ((List.mem_cons.mp hin).resolve_left fun heq ↦ hb (heq ▸ hx))
      refine ⟨m, ?_, fun c ↦ ?_⟩
      · rw [common?, List.foldl_cons, if_neg hb]
        exact hm
      · rw [hcommon, List.forall_mem_cons]
        simp only [hb, false_implies, true_and]

end Common

/-! ### Moving one parent -/

theorem IsTree.insert (htree : IsTree order entry parents) (hb : b ∈ order) (hne : b ≠ entry)
    (hm : m ∈ parents) (hlt : order.idxOf m < order.idxOf b) :
    IsTree order entry (parents.insert b m) where
  root := by rw [getElem?_map_insert, if_neg hne, htree.root]
  mem_order x hx := by
    rcases mem_map_insert.mp hx with rfl | hx
    · exact hb
    · exact htree.mem_order x hx
  rises x c hc hx := by
    rw [getElem?_map_insert] at hc
    split_ifs at hc with hbx
    · subst hbx
      obtain rfl := Option.some.inj hc
      exact ⟨mem_map_insert.mpr (Or.inr hm), hlt⟩
    · obtain ⟨hmem, hless⟩ := htree.rises x c hc hx
      exact ⟨mem_map_insert.mpr (Or.inr hmem), hless⟩

/-- Blocks before the one that is moved keep their ancestors. -/
theorem ancestor_insert_iff (htree : IsTree order entry parents)
    (htree' : IsTree order entry (parents.insert b m)) (hx : order.idxOf x < order.idxOf b) :
    Ancestor (parents.insert b m) a x ↔ Ancestor parents a x := by
  have hsame : ∀ y, order.idxOf y ≤ order.idxOf x → (parents.insert b m)[y]? = parents[y]? := by
    intro y hy
    rw [getElem?_map_insert, if_neg]
    rintro rfl
    omega
  constructor
  · exact fun h ↦ h.congr htree' fun y hy ↦ (hsame y hy).symm
  · exact fun h ↦ h.congr htree hsame

/-- What a block loses by a move are ancestors before the moved block, which it keeps. -/
theorem ancestor_insert_or (htree : IsTree order entry parents) (hne : b ≠ entry)
    (h : Ancestor parents a x) :
    Ancestor (parents.insert b m) a x ∨
      Ancestor (parents.insert b m) b x ∧ order.idxOf a < order.idxOf b := by
  induction h with
  | refl => exact Or.inl (.refl _)
  | @up x c hparent hrest ih =>
    by_cases hx : b = x
    · subst hx
      refine Or.inr ⟨.refl _, ?_⟩
      have hle := hrest.idxOf_le htree
      have hless := (htree.rises b c hparent hne).2
      omega
    · have hparent' : (parents.insert b m)[x]? = some c := by
        rw [getElem?_map_insert, if_neg hx, hparent]
      rcases ih with h | ⟨h, hless⟩
      · exact Or.inl (.up hparent' h)
      · exact Or.inr ⟨.up hparent' h, hless⟩

/-- A block moved up to an ancestor of its parent gives no block a new ancestor. -/
theorem ancestor_of_insert (htree : IsTree order entry parents) (hm : m ∈ parents)
    (hup : ∀ p, parents[b]? = some p → Ancestor parents m p) (hx : x ∈ parents)
    (h : Ancestor (parents.insert b m) a x) : Ancestor parents a x := by
  induction h with
  | refl => exact .refl _
  | @up x c hparent hrest ih =>
    rw [getElem?_map_insert] at hparent
    split_ifs at hparent with hbx
    · subst hbx
      obtain rfl := Option.some.inj hparent
      obtain ⟨p, hp⟩ := Option.isSome_iff_exists.mp (Std.ExtTreeMap.mem_iff_isSome_getElem?.mp hx)
      exact .up hp ((ih hm).trans (hup p hp))
    · exact .up hparent (ih ((Ancestor.up hparent (.refl c)).mem htree hx))

/-! ### The way up -/

section Chain

variable (hhead : order.head? = some entry) (htree : IsTree order entry parents)

include hhead htree

/-- The way up from a block, with enough fuel, lists its other ancestors. -/
theorem mem_chain_iff {fuel : Nat} (hb : b ∈ parents) (hfuel : order.idxOf b ≤ fuel) :
    a ∈ chain (parents.erase entry) fuel b ↔ a ≠ b ∧ Ancestor parents a b := by
  have hempty : ∀ x, x = entry → (a ∈ ([] : List BlockId) ↔ a ≠ x ∧ Ancestor parents a x) := by
    intro x hx
    have hnot : ¬ (a ≠ x ∧ Ancestor parents a x) :=
      fun h ↦ h.1 ((h.2.eq_entry htree hx).trans hx.symm)
    exact iff_of_false List.not_mem_nil hnot
  induction fuel generalizing b with
  | zero =>
    refine hempty b ((List.idxOf_inj (htree.mem_order b hb)).mp ?_)
    rw [idxOf_entry hhead]
    exact Nat.le_zero.mp hfuel
  | succ fuel ih =>
    rw [chain, getElem?_map_erase]
    by_cases hentry : b = entry
    · rw [if_pos hentry.symm]
      exact hempty b hentry
    · obtain ⟨p, hp⟩ := Option.isSome_iff_exists.mp (Std.ExtTreeMap.mem_iff_isSome_getElem?.mp hb)
      obtain ⟨hmem, hlt⟩ := htree.rises b p hp hentry
      have hrest : a ∈ chain (parents.erase entry) fuel p ↔ a ≠ p ∧ Ancestor parents a p :=
        ih hmem (Nat.le_of_lt_succ (Nat.lt_of_lt_of_le hlt hfuel))
      rw [if_neg fun heq ↦ hentry heq.symm, hp, Option.elim_some, List.mem_cons, hrest]
      constructor
      · intro h
        have hap : Ancestor parents a p := by
          rcases h with rfl | ⟨-, h⟩
          · exact .refl a
          · exact h
        have hle := hap.idxOf_le htree
        refine ⟨?_, .up hp hap⟩
        rintro rfl
        omega
      · rintro ⟨hab, hanc⟩
        cases hanc with
        | refl => exact absurd rfl hab
        | up hp' hap =>
          rw [hp] at hp'
          obtain rfl := Option.some.inj hp'
          exact or_iff_not_imp_left.mpr fun hne ↦ ⟨hne, hap⟩

end Chain

/-- Where the tree holds the whole order, there are enough parents to go up from any block. -/
theorem idxOf_le_size (hhead : order.head? = some entry) (hnodup : order.Nodup)
    (hall : ∀ x ∈ order, x ∈ parents) (hb : b ∈ order) :
    order.idxOf b ≤ (parents.erase entry).size := by
  have hentry : entry ∈ parents := hall entry (List.mem_of_mem_head? hhead)
  have hperm : order.length ≤ parents.size := by
    rw [← Std.ExtTreeMap.length_keys]
    exact List.Subperm.length_le (List.subperm_of_subset hnodup
      fun x hx ↦ Std.ExtTreeMap.mem_keys.mpr (hall x hx))
  have hlt := List.idxOf_lt_length_of_mem hb
  rw [Std.ExtTreeMap.size_erase, if_pos (Std.ExtTreeMap.contains_iff_mem.mpr hentry)]
  omega

end OwnershipFlow.Dominators
