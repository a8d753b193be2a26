import Mathlib.Algebra.Group.Action.Defs
import Mathlib.Data.List.Induction
import OwnershipFlow.Proofs.Ancestors
import OwnershipFlow.Proofs.Fixpoint
import OwnershipFlow.Proofs.Walk

/-!
# The iteration for immediate dominators

Two things are shown of the passes over an order in which every block but the entry has a
predecessor before it (`Ordered`).

They come to an end: a parent is only ever replaced by one of its own ancestors. This needs an
invariant that depends on how far the pass has got (`Steady`). The parent of a block that is still
to be revised may be out of date, and then what its predecessors have in common need not be an
ancestor of the parent by itself. But a predecessor before the block still has the parent as an
ancestor as long as the parent has not been revised (`Steady.before`).

And they find the dominators (`exists_parents`): at the end, the ancestors of a block are the
blocks that every walk from the entry to it meets. That no dominator is lost on the way
(`Faithful`) rests on a walk from every ancestor to its descendants that stays behind the ancestor
in the order.
-/

set_option autoImplicit false
set_option relaxedAutoImplicit false

namespace OwnershipFlow.Dominators

variable {order : List BlockId} {prior : BlockId → List BlockId} {entry : BlockId}
  {parents : Parents} {a b c m x y : BlockId}

/-! ### One pass -/

/-- An order of blocks that starts with the entry and in which every other block has a predecessor
before it. -/
structure Ordered (order : List BlockId) (prior : BlockId → List BlockId) (entry : BlockId) :
    Prop where
  nodup : order.Nodup
  head : order.head? = some entry
  earlier : ∀ b ∈ order, b ≠ entry → ∃ u ∈ prior b, u ∈ order ∧ order.idxOf u < order.idxOf b

/-- What holds of the parents when a pass has revised the first blocks of the order. -/
structure Steady (order : List BlockId) (prior : BlockId → List BlockId) (entry : BlockId)
    (revised : List BlockId) (parents : Parents) : Prop where
  tree : IsTree order entry parents
  /-- Blocks get their first parents in order. -/
  initial : ∀ b ∈ parents, ∀ x ∈ order, order.idxOf x ≤ order.idxOf b → x ∈ parents
  mem_revised : ∀ b ∈ revised, b ∈ parents
  /-- What the predecessors of a block have in common is an ancestor of its parent. -/
  common : ∀ b p, b ≠ entry → parents[b]? = some p →
    ∀ c, (∀ u ∈ prior b, u ∈ parents → Ancestor parents c u) → Ancestor parents c p
  /-- A parent is an ancestor of the predecessors before its child, unless it has been revised and
  its child has not. -/
  before : ∀ b p, b ≠ entry → parents[b]? = some p →
    revised.length ≤ order.idxOf p ∨ order.idxOf b < revised.length →
    ∀ u ∈ prior b, u ∈ parents → order.idxOf u < order.idxOf b → Ancestor parents p u

/-- How far below the entry the blocks of an order lie, a block without a parent lowest. -/
def height (order : List BlockId) (parents : Parents) : Nat :=
  (order.map fun b ↦ parents[b]?.elim order.length order.idxOf).sum

section Pass

variable (hordered : Ordered order prior entry) {revised rest : List BlockId}
  (hsplit : order = revised ++ b :: rest)

include hordered hsplit in
theorem idxOf_of_split : order.idxOf b = revised.length := by
  have hnodup := hordered.nodup
  rw [hsplit] at hnodup ⊢
  have hnot : b ∉ revised := fun hin ↦
    (List.nodup_append.mp hnodup).2.2 b hin b List.mem_cons_self rfl
  rw [List.idxOf_append_of_notMem hnot, List.idxOf_cons_self, Nat.add_zero]

include hordered hsplit

/-- Revising a block moves it to the common ancestor of its predecessors, which is before it and
among the ancestors of the parent it had. -/
theorem revise_spec (h : Steady order prior entry revised parents) (hne : b ≠ entry) :
    ∃ m, revise order.idxOf prior entry parents b = parents.insert b m ∧ m ∈ parents ∧
      order.idxOf m < order.idxOf b ∧
      (∀ c, Ancestor parents c m ↔ ∀ u ∈ prior b, u ∈ parents → Ancestor parents c u) ∧
      ∀ p, parents[b]? = some p → Ancestor parents m p := by
  have hb : b ∈ order := by simp [hsplit]
  obtain ⟨u, hu, -, hlt⟩ := hordered.earlier b hb hne
  have hmem : u ∈ parents := h.mem_revised u (mem_of_idxOf_lt hsplit hlt)
  obtain ⟨m, hm, hcommon⟩ := common?_spec hordered.head h.tree hu hmem
  have hall := (hcommon m).mp (.refl m)
  have hmu := hall u hu hmem
  refine ⟨m, ?_, hmu.mem h.tree hmem, ?_, hcommon, fun p hp ↦ h.common b p hne hp m hall⟩
  · rw [revise, if_neg hne, hm]
    rfl
  · have := hmu.idxOf_le h.tree
    omega

section Move

variable (h : Steady order prior entry revised parents) (hne : b ≠ entry) {m : BlockId}
  (hm : m ∈ parents) (hlt : order.idxOf m < order.idxOf b)
  (hcommon : ∀ c, Ancestor parents c m ↔ ∀ u ∈ prior b, u ∈ parents → Ancestor parents c u)
  (hup : ∀ p, parents[b]? = some p → Ancestor parents m p)

include h hne hm hlt hcommon

include hup in
/-- What the predecessors of a block have in common stays an ancestor of its parent. -/
theorem Steady.common_insert {x q c : BlockId} (hx : x ≠ entry)
    (hq : (parents.insert b m)[x]? = some q)
    (hc : ∀ u ∈ prior x, u ∈ parents.insert b m → Ancestor (parents.insert b m) c u) :
    Ancestor (parents.insert b m) c q := by
  have hb : b ∈ order := by simp [hsplit]
  have hpos := idxOf_of_split hordered hsplit
  have htree' := h.tree.insert hb hne hm hlt
  have hc' : ∀ u ∈ prior x, u ∈ parents → Ancestor parents c u := fun u hu hmem ↦
    ancestor_of_insert h.tree hm hup hmem (hc u hu (mem_map_insert.mpr (Or.inr hmem)))
  rw [getElem?_map_insert] at hq
  split_ifs at hq with hbx
  · subst hbx
    obtain rfl := Option.some.inj hq
    exact (ancestor_insert_iff h.tree htree' hlt).mpr ((hcommon c).mpr hc')
  · have hmem : x ∈ parents :=
      Std.ExtTreeMap.mem_iff_isSome_getElem?.mpr (by rw [hq]; rfl)
    rcases ancestor_insert_or (m := m) h.tree hne (h.common x q hx hq c hc') with h' | ⟨hbq, hcb⟩
    · exact h'
    · -- The parent is out of date, but a predecessor before the block still has it as ancestor.
      have hle := hbq.idxOf_le htree'
      obtain ⟨u, hu, hin, hux⟩ := hordered.earlier x (h.tree.mem_order x hmem) hx
      have humem := h.initial x hmem u hin hux.le
      have hqu := h.before x q hx hq (Or.inl (hpos ▸ hle)) u hu humem hux
      rcases ancestor_insert_or (m := m) h.tree hne hqu with hqu | ⟨-, hqb⟩
      · rcases (hc u hu (mem_map_insert.mpr (Or.inr humem))).total hqu with h' | h'
        · exact h'
        · have := h'.idxOf_le htree'
          omega
      · omega

/-- A parent stays an ancestor of the predecessors before its child, that of the moved block
included. -/
theorem Steady.before_insert {x q u : BlockId} (hx : x ≠ entry)
    (hq : (parents.insert b m)[x]? = some q)
    (hpast : revised.length + 1 ≤ order.idxOf q ∨ order.idxOf x < revised.length + 1)
    (hu : u ∈ prior x) (hmem : u ∈ parents.insert b m) (hux : order.idxOf u < order.idxOf x) :
    Ancestor (parents.insert b m) q u := by
  have hb : b ∈ order := by simp [hsplit]
  have hpos := idxOf_of_split hordered hsplit
  have htree' := h.tree.insert hb hne hm hlt
  rw [getElem?_map_insert] at hq
  split_ifs at hq with hbx
  · subst hbx
    obtain rfl := Option.some.inj hq
    have humem := (mem_map_insert.mp hmem).resolve_left fun heq ↦
      Nat.lt_irrefl _ (heq ▸ hux)
    exact (ancestor_insert_iff h.tree htree' hux).mpr ((hcommon m).mp (.refl m) u hu humem)
  · have hxmem : x ∈ parents :=
      Std.ExtTreeMap.mem_iff_isSome_getElem?.mpr (by rw [hq]; rfl)
    have humem : u ∈ parents := by
      rcases mem_map_insert.mp hmem with rfl | humem
      · exact h.initial x hxmem u hb hux.le
      · exact humem
    have hne' : order.idxOf x ≠ order.idxOf b :=
      fun heq ↦ hbx ((List.idxOf_inj (h.tree.mem_order x hxmem)).mp heq).symm
    have hqu := h.before x q hx hq (by omega) u hu humem hux
    rcases ancestor_insert_or (m := m) h.tree hne hqu with hqu | ⟨hbu, hqb⟩
    · exact hqu
    · have := hbu.idxOf_le htree'
      omega

end Move

/-- Revising the next block keeps what holds during a pass. -/
theorem Steady.revise (h : Steady order prior entry revised parents) :
    Steady order prior entry (revised ++ [b]) (revise order.idxOf prior entry parents b) := by
  have hb : b ∈ order := by simp [hsplit]
  have hpos := idxOf_of_split hordered hsplit
  by_cases hne : b = entry
  · subst hne
    have hzero : revised.length = 0 := by rw [← hpos, idxOf_entry hordered.head]
    have hkept : Dominators.revise order.idxOf prior b parents b = parents := if_pos rfl
    rw [hkept]
    refine ⟨h.tree, h.initial, ?_, h.common, fun x p hx hp _ ↦ h.before x p hx hp (by omega)⟩
    intro x hx
    obtain rfl : revised = [] := List.length_eq_zero_iff.mp hzero
    obtain rfl := List.mem_singleton.mp hx
    exact Std.ExtTreeMap.mem_iff_isSome_getElem?.mpr (by rw [h.tree.root]; rfl)
  · obtain ⟨m, hrevise, hm, hlt, hcommon, hup⟩ := revise_spec hordered hsplit h hne
    rw [hrevise]
    constructor
    case tree => exact h.tree.insert hb hne hm hlt
    case initial =>
      intro x hx z hz hzx
      rcases mem_map_insert.mp hx with rfl | hx
      · rcases Nat.lt_or_eq_of_le hzx with hzb | hzb
        · exact mem_map_insert.mpr (Or.inr
            (h.mem_revised z (mem_of_idxOf_lt hsplit hzb)))
        · exact mem_map_insert.mpr (Or.inl ((List.idxOf_inj hz).mp hzb))
      · exact mem_map_insert.mpr (Or.inr (h.initial x hx z hz hzx))
    case mem_revised =>
      intro x hx
      rcases List.mem_append.mp hx with hx | hx
      · exact mem_map_insert.mpr (Or.inr (h.mem_revised x hx))
      · exact mem_map_insert.mpr (Or.inl (List.mem_singleton.mp hx))
    case common =>
      intro x q hx hq c hc
      exact h.common_insert hordered hsplit hne hm hlt hcommon hup hx hq hc
    case before =>
      intro x q hx hq hpast u hu hmem hux
      rw [List.length_append, List.length_singleton] at hpast
      exact h.before_insert hordered hsplit hne hm hlt hcommon hx hq hpast hu hmem hux

/-- A block that gets a parent, or another one, comes to lie under an earlier block. -/
theorem height_revise_lt (h : Steady order prior entry revised parents)
    (hchange : Dominators.revise order.idxOf prior entry parents b ≠ parents) :
    height order (Dominators.revise order.idxOf prior entry parents b) < height order parents := by
  have hb : b ∈ order := by simp [hsplit]
  have hne : b ≠ entry := fun heq ↦ hchange (if_pos heq)
  obtain ⟨m, hrevise, hm, hlt, -, hup⟩ := revise_spec hordered hsplit h hne
  rw [hrevise] at hchange ⊢
  have hmlt := List.idxOf_lt_length_of_mem (h.tree.mem_order m hm)
  have hnew : order.idxOf m + 1 ≤ parents[b]?.elim order.length order.idxOf := by
    cases hp : parents[b]? with
    | none => exact hmlt
    | some p =>
      have hle := (hup p hp).idxOf_le h.tree
      have hmp : m ≠ p := by
        rintro rfl
        refine hchange (Std.ExtTreeMap.ext_getElem? fun {x} ↦ ?_)
        rw [getElem?_map_insert]
        split_ifs with hbx
        · rw [← hbx, hp]
        · rfl
      have hne' : order.idxOf m ≠ order.idxOf p :=
        fun heq ↦ hmp ((List.idxOf_inj (h.tree.mem_order m hm)).mp heq)
      rw [Option.elim_some]
      omega
  show (order.map _).sum + 1 ≤ (order.map _).sum
  refine sum_map_add_le (fun x _ ↦ ?_) hb ?_
  · rw [getElem?_map_insert]
    split_ifs with hbx
    · subst hbx
      exact Nat.le_of_succ_le hnew
    · exact Nat.le_refl _
  · rw [getElem?_map_insert, if_pos rfl]
    exact hnew

end Pass

/-- What holds when a pass is over holds at every stage of the next one that changes nothing. -/
theorem Steady.restart {revised : List BlockId} (h : Steady order prior entry order parents)
    (hsub : ∀ b ∈ revised, b ∈ order) : Steady order prior entry revised parents where
  tree := h.tree
  initial := h.initial
  mem_revised b hb := h.mem_revised b (hsub b hb)
  common := h.common
  before b p hb hp _ :=
    h.before b p hb hp (Or.inr (List.idxOf_lt_length_of_mem (h.tree.mem_order b
      (Std.ExtTreeMap.mem_iff_isSome_getElem?.mpr (by rw [hp]; rfl)))))

section Passes

variable (hordered : Ordered order prior entry)

include hordered

theorem steady_start :
    Steady order prior entry [] ((∅ : Parents).insert entry entry) := by
  have hmem : ∀ x, x ∈ (∅ : Parents).insert entry entry → x = entry := by
    intro x hx
    exact (mem_map_insert.mp hx).resolve_right Std.ExtTreeMap.not_mem_empty
  have hroot : entry ∈ order := List.mem_of_mem_head? hordered.head
  have hnone : ∀ b p, b ≠ entry → ((∅ : Parents).insert entry entry)[b]? ≠ some p := by
    intro b p hb hp
    exact hb (hmem b (Std.ExtTreeMap.mem_iff_isSome_getElem?.mpr (by rw [hp]; rfl)))
  refine ⟨⟨?_, ?_, fun b c hc hb ↦ absurd hc (hnone b c hb)⟩, ?_, ?_,
    fun b p hb hp ↦ absurd hp (hnone b p hb), fun b p hb hp ↦ absurd hp (hnone b p hb)⟩
  · rw [getElem?_map_insert, if_pos rfl]
  · intro b hb
    exact hmem b hb ▸ hroot
  · intro b hb x hx hle
    rw [hmem b hb, idxOf_entry hordered.head] at hle
    refine mem_map_insert.mpr (Or.inl ((List.idxOf_inj hx).mp ?_))
    rw [idxOf_entry hordered.head]
    omega
  · exact fun b hb ↦ absurd hb List.not_mem_nil

/-- What holds of the parents during a pass holds during every pass. -/
theorem steady_stage {revised rest : List BlockId} {passes : Nat}
    (hsplit : order = revised ++ rest) : Steady order prior entry revised
      (stage (Dominators.revise order.idxOf prior entry) order ((∅ : Parents).insert entry entry)
        passes revised) :=
  stage_keeps (fun _ _ _ _ hnext h ↦ h.revise hordered hnext)
    (fun _ h ↦ h.restart fun _ hb ↦ absurd hb List.not_mem_nil) (steady_start hordered) hsplit

/-- After some number of passes the parents stand still, with what every revision keeps. -/
theorem exists_settled {p : Parents → Prop} (hstart : p ((∅ : Parents).insert entry entry))
    (hkeep : ∀ revised b rest parents, order = revised ++ b :: rest →
      Steady order prior entry revised parents → p parents →
      p (Dominators.revise order.idxOf prior entry parents b)) :
    ∃ parents, (∃ passes, parents = stage (Dominators.revise order.idxOf prior entry) order
        ((∅ : Parents).insert entry entry) passes []) ∧
      immediate order prior entry = parents.erase entry ∧ p parents ∧
      Steady order prior entry order parents ∧
      ∀ b ∈ order, revise order.idxOf prior entry parents b = parents := by
  have hrounds : height order ((∅ : Parents).insert entry entry) ≤
      order.length * order.length + 1 := by
    have hle := List.sum_le_card_nsmul
      (order.map fun b ↦ ((∅ : Parents).insert entry entry)[b]?.elim order.length order.idxOf)
      order.length (by
        intro n hn
        obtain ⟨b, hb, rfl⟩ := List.mem_map.mp hn
        cases ((∅ : Parents).insert entry entry)[b]? with
        | none => exact Nat.le_refl _
        | some c => exact List.idxOf_le_length)
    rw [List.length_map, smul_eq_mul] at hle
    exact hle.trans (Nat.le_succ _)
  obtain ⟨⟨hsteady, hp⟩, hfixed⟩ := untilStable_foldl (m := height order)
    (p := fun revised parents ↦ Steady order prior entry revised parents ∧ p parents)
    (fun revised b rest parents hsplit h ↦
      ⟨h.1.revise hordered hsplit, hkeep revised b rest parents hsplit h.1 h.2⟩)
    (fun revised b rest parents hsplit h ↦ height_revise_lt hordered hsplit h.1)
    (fun parents h ↦ ⟨h.1.restart fun b hb ↦ absurd hb List.not_mem_nil, h.2⟩)
    ⟨steady_start hordered, hstart⟩ hrounds
  exact ⟨_, exists_untilStable_eq_stage, rfl, hp, hsteady, hfixed⟩

end Passes

/-! ### The dominators -/

variable {next : BlockId → List BlockId}

/-- The parents lose no dominator: every dominator of a block is one of its ancestors. Every parent
has a walk to its child that stays behind it in the order. -/
structure Faithful (next : BlockId → List BlockId) (entry : BlockId) (order : List BlockId)
    (parents : Parents) : Prop where
  walk : ∀ b p, b ≠ entry → parents[b]? = some p →
    ∃ left, Walk next p left b ∧ ∀ x ∈ left, order.idxOf p ≤ order.idxOf x
  ancestor : ∀ b ∈ parents, ∀ a, Dominates next entry a b → Ancestor parents a b

/-- Every ancestor has a walk to its descendant that stays behind it in the order. -/
theorem walk_of_ancestor (htree : IsTree order entry parents)
    (hwalk : ∀ b p, b ≠ entry → parents[b]? = some p →
      ∃ left, Walk next p left b ∧ ∀ x ∈ left, order.idxOf p ≤ order.idxOf x)
    (ha : Ancestor parents a b) :
    ∃ left, Walk next a left b ∧ ∀ x ∈ left, order.idxOf a ≤ order.idxOf x := by
  induction ha with
  | refl => exact ⟨[], .nil _, fun x hx ↦ absurd hx List.not_mem_nil⟩
  | @up b c hparent hrest ih =>
    by_cases hb : b = entry
    · subst hb
      rw [htree.root] at hparent
      exact Option.some.inj hparent ▸ ih
    · obtain ⟨first, hfirst, habove⟩ := ih
      obtain ⟨second, hsecond, hbelow⟩ := hwalk b c hb hparent
      refine ⟨first ++ second, hfirst.append hsecond, fun x hx ↦ ?_⟩
      rcases List.mem_append.mp hx with hx | hx
      · exact habove x hx
      · exact (hrest.idxOf_le htree).trans (hbelow x hx)

theorem faithful_start : Faithful next entry order ((∅ : Parents).insert entry entry) where
  walk b p hb hp := by
    rw [getElem?_map_insert, if_neg fun heq ↦ hb heq.symm] at hp
    simp at hp
  ancestor b hb a ha := by
    obtain rfl := (mem_map_insert.mp hb).resolve_right Std.ExtTreeMap.not_mem_empty
    exact ha.eq_entry ▸ .refl _

section Graph

variable (hordered : Ordered order prior entry) (hedge : ∀ b, ∀ u ∈ prior b, b ∈ next u)

include hordered hedge in
/-- Revising a block loses no dominator. -/
theorem Faithful.revise {revised rest : List BlockId} (hsplit : order = revised ++ b :: rest)
    (h : Steady order prior entry revised parents) (hf : Faithful next entry order parents) :
    Faithful next entry order (revise order.idxOf prior entry parents b) := by
  by_cases hne : b = entry
  · have hkept : Dominators.revise order.idxOf prior entry parents b = parents := if_pos hne
    rw [hkept]
    exact hf
  · obtain ⟨m, hrevise, hm, hlt, hcommon, -⟩ := revise_spec hordered hsplit h hne
    have hb : b ∈ order := by simp [hsplit]
    have htree' := h.tree.insert hb hne hm hlt
    rw [hrevise]
    have hwalk : ∀ x p, x ≠ entry → (parents.insert b m)[x]? = some p →
        ∃ left, Walk next p left x ∧ ∀ y ∈ left, order.idxOf p ≤ order.idxOf y := by
      intro x p hx hp
      rw [getElem?_map_insert] at hp
      split_ifs at hp with hbx
      · subst hbx
        obtain rfl := Option.some.inj hp
        obtain ⟨u, hu, -, hub⟩ := hordered.earlier b hb hne
        have humem := h.mem_revised u (mem_of_idxOf_lt hsplit hub)
        have hmu := (hcommon m).mp (.refl m) u hu humem
        obtain ⟨left, hleft, hbelow⟩ := walk_of_ancestor h.tree hf.walk hmu
        refine ⟨left ++ [u], hleft.snoc (hedge b u hu), fun y hy ↦ ?_⟩
        rcases List.mem_append.mp hy with hy | hy
        · exact hbelow y hy
        · exact List.mem_singleton.mp hy ▸ hmu.idxOf_le h.tree
      · exact hf.walk x p hx hp
    have hmoved : ∀ a, Dominates next entry a b → Ancestor (parents.insert b m) a b := by
      intro a ha
      by_cases hab : a = b
      · exact hab ▸ .refl a
      · have ham : Ancestor parents a m := (hcommon a).mpr fun u hu humem ↦
          hf.ancestor u humem a (ha.of_edge hab (hedge b u hu))
        refine .up ?_ ((ancestor_insert_iff h.tree htree' hlt).mpr ham)
        rw [getElem?_map_insert, if_pos rfl]
    refine ⟨hwalk, fun x hx a ha ↦ ?_⟩
    rcases mem_map_insert.mp hx with rfl | hxmem
    · exact hmoved a ha
    · rcases ancestor_insert_or (m := m) h.tree hne (hf.ancestor x hxmem a ha) with hax | ⟨hbx, hab⟩
      · exact hax
      · -- What dominates a descendant of the moved block from before it dominates the block too.
        obtain ⟨second, hsecond, hbelow⟩ := walk_of_ancestor htree' hwalk hbx
        refine (hmoved a fun first hfirst ↦ ?_).trans hbx
        rcases ha _ (hfirst.append hsecond) with hin | rfl
        · rcases List.mem_append.mp hin with hin | hin
          · exact Or.inl hin
          · have := hbelow a hin
            omega
        · have := hbx.idxOf_le htree'
          omega

variable (hreach : ∀ b, b ∈ order ↔ Leads next entry b)
  (hprior : ∀ u ∈ order, ∀ b ∈ next u, u ∈ prior b)

include hordered hedge hreach hprior

/-- The immediate dominators come from parents among whose ancestors every reachable block has
exactly its dominators. -/
theorem exists_parents : ∃ parents, immediate order prior entry = parents.erase entry ∧
    IsTree order entry parents ∧ (∀ b ∈ order, b ∈ parents) ∧
    ∀ b ∈ order, ∀ a, Ancestor parents a b ↔ Dominates next entry a b := by
  obtain ⟨parents, -, himmediate, hfaithful, hsteady, hfixed⟩ := exists_settled hordered
    (p := Faithful next entry order) faithful_start
    fun revised b rest parents hsplit h hf ↦ hf.revise hordered hedge hsplit h
  refine ⟨parents, himmediate, hsteady.tree, hsteady.mem_revised, fun b hb a ↦ ⟨fun ha ↦ ?_,
    fun ha ↦ hfaithful.ancestor b (hsteady.mem_revised b hb) a ha⟩⟩
  -- Where nothing changes any more, an ancestor of a block is one of all its predecessors too.
  have hshared : ∀ u ∈ order, ∀ v ∈ next u, Ancestor parents a v → a ≠ v →
      Ancestor parents a u := by
    intro u hu v hv hav hne
    have hvorder : v ∈ order := (hreach v).mpr (((hreach u).mp hu).step hv)
    obtain ⟨revised, rest, hsplit⟩ := List.mem_iff_append.mp hvorder
    by_cases hentry : v = entry
    · exact absurd (hav.eq_entry hsteady.tree hentry) (hentry ▸ hne)
    · have hpast : Steady order prior entry revised parents :=
        hsteady.restart fun x hx ↦ by simp [hsplit, hx]
      obtain ⟨m, hrevise, -, -, hcommon, -⟩ := revise_spec hordered hsplit hpast hentry
      rw [hfixed v hvorder] at hrevise
      have hparent : parents[v]? = some m := by
        rw [hrevise, getElem?_map_insert, if_pos rfl]
      cases hav with
      | refl => exact absurd rfl hne
      | up hparent' ham =>
        rw [hparent] at hparent'
        obtain rfl := Option.some.inj hparent'
        exact (hcommon a).mp ham u (hprior u hu v hv) (hsteady.mem_revised u hu)
  intro left hwalk
  induction left using List.reverseRecOn generalizing b with
  | nil =>
    cases hwalk
    exact Or.inr (ha.eq_entry hsteady.tree rfl)
  | append_singleton left u ih =>
    obtain ⟨hleft, hlast⟩ := hwalk.of_snoc
    have hu : u ∈ order := (hreach u).mpr ⟨left, hleft⟩
    by_cases hab : a = b
    · exact Or.inr hab
    · refine Or.inl (List.mem_append.mpr ?_)
      rcases ih u hu (hshared u hu b hlast ha hab) hleft with hin | rfl
      · exact Or.inl hin
      · exact Or.inr List.mem_cons_self

end Graph

/-- Where ancestors are dominators, a parent is the immediate dominator of its child. -/
theorem immediatelyDominates_of_parent (htree : IsTree order entry parents)
    (hancestor : ∀ b ∈ order, ∀ a, Ancestor parents a b ↔ Dominates next entry a b)
    (hne : b ≠ entry) (hparent : parents[b]? = some m) : ImmediatelyDominates next entry m b := by
  obtain ⟨hm, hlt⟩ := htree.rises b m hparent hne
  have hb : b ∈ order :=
    htree.mem_order b (Std.ExtTreeMap.mem_iff_isSome_getElem?.mpr (by rw [hparent]; rfl))
  refine ⟨?_, (hancestor b hb m).mp (.up hparent (.refl m)), fun c hcb hdom ↦ ?_⟩
  · rintro rfl
    exact Nat.lt_irrefl _ hlt
  · cases (hancestor b hb c).mpr hdom with
    | refl => exact absurd rfl hcb
    | up hparent' hcm =>
      rw [hparent] at hparent'
      obtain rfl := Option.some.inj hparent'
      exact (hancestor m (htree.mem_order m hm) c).mp hcm

end OwnershipFlow.Dominators
