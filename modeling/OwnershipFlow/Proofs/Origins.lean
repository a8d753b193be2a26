import OwnershipFlow.Origins

/-!
# Recording copies

Nodes are split into old ones and new ones. As long as links lead from new nodes to old ones and
every new node is linked once, recording a link leaves all other links as they are, so after a
whole list of links each new node stands for what its source stood for (`get?_record_of_mem`), and
all other nodes for what they stood for before (`get?_record_of_not_mem`).
-/

set_option autoImplicit false
set_option relaxedAutoImplicit false

namespace OwnershipFlow.Origins

variable {Old : Node → Prop} {o : Origins} {n m derived source : Node} {pairs : List (Node × Node)}

/-- All derived nodes stand for old nodes. -/
def LeadsTo (Old : Node → Prop) (o : Origins) : Prop :=
  ∀ n m, o.get? n = some m → Old m

theorem leadsTo_empty : empty.LeadsTo Old := fun n m h ↦ by
  rw [get?_empty] at h
  cases h

theorem LeadsTo.resolve (h : o.LeadsTo Old) (hn : Old n) : Old (o.resolve n) := by
  unfold Origins.resolve
  cases hget : o.get? n with
  | none => exact hn
  | some m => exact h n m hget

/-- A link from a new node to an old one changes nothing else. -/
theorem LeadsTo.get?_insert (h : o.LeadsTo Old) (hderived : ¬ Old derived) (hsource : Old source) :
    (o.insert derived source).get? n =
      if n = derived then some (o.resolve source) else o.get? n := by
  have hne : ∀ {m}, Old m → m ≠ derived := fun hm heq ↦ hderived (heq ▸ hm)
  have hkept : (o.get? n).map (fun target ↦
      if target = derived then o.resolve source else target) = o.get? n := by
    cases hget : o.get? n with
    | none => rfl
    | some m => rw [Option.map_some, if_neg (hne (h n m hget))]
  rw [Origins.get?_insert (hne (h.resolve hsource)), hkept]

theorem LeadsTo.insert (h : o.LeadsTo Old) (hderived : ¬ Old derived) (hsource : Old source) :
    (o.insert derived source).LeadsTo Old := by
  intro n m hget
  rw [h.get?_insert hderived hsource] at hget
  split at hget
  · cases hget
    exact h.resolve hsource
  · exact h n m hget

/-- An old node stands for what it stood for. -/
theorem LeadsTo.resolve_insert (h : o.LeadsTo Old) (hderived : ¬ Old derived)
    (hsource : Old source) (hn : Old n) : (o.insert derived source).resolve n = o.resolve n := by
  have hne : n ≠ derived := fun heq ↦ hderived (heq ▸ hn)
  unfold Origins.resolve
  rw [h.get?_insert hderived hsource, if_neg hne]

/-! ### Lists of links -/

section Record

variable (h : o.LeadsTo Old) (hpairs : ∀ x ∈ pairs, ¬ Old x.1 ∧ Old x.2)

include h hpairs

theorem LeadsTo.record : (o.record pairs).LeadsTo Old := by
  induction pairs generalizing o with
  | nil => exact h
  | cons x rest ih =>
    rw [List.forall_mem_cons] at hpairs
    exact ih (h.insert hpairs.1.1 hpairs.1.2) hpairs.2

theorem LeadsTo.get?_record_of_not_mem (hn : n ∉ pairs.map Prod.fst) :
    (o.record pairs).get? n = o.get? n := by
  induction pairs generalizing o with
  | nil => rfl
  | cons x rest ih =>
    rw [List.forall_mem_cons] at hpairs
    rw [List.map_cons, List.mem_cons, not_or] at hn
    calc (o.record (x :: rest)).get? n
        = (o.insert x.1 x.2).get? n := ih (h.insert hpairs.1.1 hpairs.1.2) hpairs.2 hn.2
      _ = o.get? n := by rw [h.get?_insert hpairs.1.1 hpairs.1.2, if_neg hn.1]

theorem LeadsTo.get?_record_of_mem (hkeys : (pairs.map Prod.fst).Nodup) (hmem : (n, m) ∈ pairs) :
    (o.record pairs).get? n = some (o.resolve m) := by
  induction pairs generalizing o with
  | nil => exact absurd hmem List.not_mem_nil
  | cons x rest ih =>
    rw [List.forall_mem_cons] at hpairs
    rw [List.map_cons, List.nodup_cons] at hkeys
    have hrest := h.insert hpairs.1.1 hpairs.1.2
    rcases List.mem_cons.mp hmem with rfl | hmem
    · calc (o.record ((n, m) :: rest)).get? n
          = (o.insert n m).get? n := hrest.get?_record_of_not_mem hpairs.2 hkeys.1
        _ = some (o.resolve m) := by rw [h.get?_insert hpairs.1.1 hpairs.1.2, if_pos rfl]
    · calc (o.record (x :: rest)).get? n
          = some ((o.insert x.1 x.2).resolve m) := ih hrest hpairs.2 hkeys.2 hmem
        _ = some (o.resolve m) := by
            rw [h.resolve_insert hpairs.1.1 hpairs.1.2 (hpairs.2 _ hmem).2]

end Record

end OwnershipFlow.Origins
