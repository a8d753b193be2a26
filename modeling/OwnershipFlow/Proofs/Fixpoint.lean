import Mathlib.Algebra.Order.BigOperators.Group.List
import Mathlib.Algebra.Order.Ring.Nat
import Mathlib.Logic.Function.Iterate
import OwnershipFlow.Fixpoint

/-!
# When an iteration stands still

An iteration that is given enough rounds ends at a fixed point. The rounds are counted by a
measure that every change lowers (`untilStable_fixed`).

The operations iterated here are passes: folds of a revision over a list. What holds during a pass
may depend on how far it has got, and a pass that changes nothing consists of revisions that
change nothing (`foldl_fixed_or_lt`). So the result of enough passes is left as it is by every
single revision (`untilStable_foldl`). What is kept by every revision, and from the end of a pass to
the start of the next one, holds at every moment of the iteration (`stage_keeps`), however many
passes are made; the result is one of these moments (`exists_untilStable_eq_stage`).

Measures are sums over a list of blocks, and a sum falls where one of its terms does and none
rises (`sum_map_add_le`).
-/

set_option autoImplicit false
set_option relaxedAutoImplicit false

namespace OwnershipFlow

variable {α β : Type}

/-- If no term of a sum rises and one of them falls by some amount, so does the sum. -/
theorem sum_map_add_le {f g : α → Nat} {l : List α} {a : α} {amount : Nat}
    (hle : ∀ b ∈ l, f b ≤ g b) (hin : a ∈ l) (ha : f a + amount ≤ g a) :
    (l.map f).sum + amount ≤ (l.map g).sum := by
  induction l with
  | nil => exact absurd hin List.not_mem_nil
  | cons b rest ih =>
    have hrest : (rest.map f).sum ≤ (rest.map g).sum :=
      List.sum_le_sum fun c hc ↦ hle c (List.mem_cons_of_mem _ hc)
    rw [List.map_cons, List.map_cons, List.sum_cons, List.sum_cons]
    rcases List.mem_cons.mp hin with rfl | hin
    · omega
    · have hb := hle b List.mem_cons_self
      have := ih (fun c hc ↦ hle c (List.mem_cons_of_mem _ hc)) hin
      omega

/-- If every change lowers a measure, an iteration with at least as many rounds as the measure at
its start ends at a fixed point. -/
theorem untilStable_fixed [DecidableEq α] {f : α → α} {p : α → Prop} (measure : α → Nat)
    (hkeep : ∀ a, p a → p (f a)) (hless : ∀ a, p a → f a ≠ a → measure (f a) < measure a)
    {rounds : Nat} {a : α} (ha : p a) (hrounds : measure a ≤ rounds) :
    f (untilStable f rounds a) = untilStable f rounds a := by
  induction rounds generalizing a with
  | zero =>
    by_cases hfa : f a = a
    · exact hfa
    · have := hless a ha hfa
      omega
  | succ rounds ih =>
    rw [untilStable]
    split
    · assumption
    · rename_i hfa
      have := hless a ha hfa
      exact ih (hkeep a ha) (by omega)

/-! ### Passes -/

/-- What stands before the next member of a list has been passed over. -/
theorem mem_of_idxOf_lt [DecidableEq β] {all revised rest : List β} {b x : β}
    (hsplit : all = revised ++ b :: rest) (hlt : all.idxOf x < all.idxOf b) : x ∈ revised := by
  subst hsplit
  by_contra hnot
  rw [List.idxOf_append_of_notMem hnot] at hlt
  have hle : (revised ++ b :: rest).idxOf b ≤ revised.length := by
    by_cases hb : b ∈ revised
    · rw [List.idxOf_append_of_mem hb]
      exact List.idxOf_le_length
    · rw [List.idxOf_append_of_notMem hb, List.idxOf_cons_self, Nat.add_zero]
  omega

section Pass

variable {f : α → β → α} {all : List β} {p : List β → α → Prop} {m : α → Nat}
  (hkeep : ∀ revised b rest a, all = revised ++ b :: rest → p revised a →
    p (revised ++ [b]) (f a b))
  (hless : ∀ revised b rest a, all = revised ++ b :: rest → p revised a → f a b ≠ a →
    m (f a b) < m a)

include hkeep hless

/-- The rest of a pass keeps what holds during a pass, and either lowers the measure or consists of
revisions that change nothing. -/
theorem foldl_fixed_or_lt {revised rest : List β} {a : α} (hsplit : all = revised ++ rest)
    (ha : p revised a) :
    p all (rest.foldl f a) ∧
      ((rest.foldl f a = a ∧ ∀ b ∈ rest, f a b = a) ∨ m (rest.foldl f a) < m a) := by
  induction rest generalizing revised a with
  | nil =>
    rw [List.append_nil] at hsplit
    exact ⟨hsplit ▸ ha, Or.inl ⟨rfl, fun b hb ↦ absurd hb List.not_mem_nil⟩⟩
  | cons b rest ih =>
    obtain ⟨hp, hfixed⟩ := ih (hsplit.trans (List.append_cons revised b rest))
      (hkeep revised b rest a hsplit ha)
    refine ⟨hp, ?_⟩
    rw [List.foldl_cons]
    by_cases hchange : f a b = a
    · rw [hchange] at hfixed ⊢
      exact hfixed.imp_left fun hsame ↦ ⟨hsame.1, List.forall_mem_cons.mpr ⟨hchange, hsame.2⟩⟩
    · have hlower := hless revised b rest a hsplit ha hchange
      rcases hfixed with hsame | hlast
      · rw [hsame.1]
        exact Or.inr hlower
      · exact Or.inr (hlast.trans hlower)

/-- After enough passes every revision changes nothing. -/
theorem untilStable_foldl [DecidableEq α] {rounds : Nat} {a : α}
    (hrestart : ∀ a, p all a → p [] a) (ha : p [] a) (hrounds : m a ≤ rounds) :
    p all (untilStable (fun a ↦ all.foldl f a) rounds a) ∧
      ∀ b ∈ all, f (untilStable (fun a ↦ all.foldl f a) rounds a) b =
        untilStable (fun a ↦ all.foldl f a) rounds a := by
  have hpass : ∀ a, p [] a → p all (all.foldl f a) ∧
      ((all.foldl f a = a ∧ ∀ b ∈ all, f a b = a) ∨ m (all.foldl f a) < m a) :=
    fun a ha ↦ foldl_fixed_or_lt hkeep hless (List.nil_append all).symm ha
  have hlast : p [] (untilStable (fun a ↦ all.foldl f a) rounds a) :=
    untilStable_preserves (p := p []) (fun a ha ↦ hrestart _ (hpass a ha).1) rounds a ha
  have hstill := untilStable_fixed (p := p []) m (fun a ha ↦ hrestart _ (hpass a ha).1)
    (fun a ha hne ↦ (hpass a ha).2.resolve_left fun hsame ↦ hne hsame.1) ha hrounds
  obtain ⟨hp, hfixed⟩ := hpass _ hlast
  rw [hstill] at hp hfixed
  exact ⟨hp, (hfixed.resolve_right (Nat.lt_irrefl _)).2⟩

end Pass

/-! ### Moments -/

/-- What passes over a list have made of their start when a number of them are over and the next one
has revised some members. -/
def stage (f : α → β → α) (all : List β) (start : α) (passes : Nat) (revised : List β) : α :=
  revised.foldl f ((fun a ↦ all.foldl f a)^[passes] start)

section Moments

variable {f : α → β → α} {all revised : List β} {start : α} {passes : Nat}

theorem stage_snoc {b : β} :
    stage f all start passes (revised ++ [b]) = f (stage f all start passes revised) b :=
  List.foldl_concat ..

/-- A pass that has revised the whole list is over. -/
theorem stage_all : stage f all start passes all = stage f all start (passes + 1) [] := by
  rw [stage, stage, Function.iterate_succ_apply', List.foldl_nil]

/-- The result of an iteration is what some number of passes makes of its start. -/
theorem exists_untilStable_eq_stage [DecidableEq α] {rounds : Nat} :
    ∃ passes, untilStable (fun a ↦ all.foldl f a) rounds start = stage f all start passes [] := by
  induction rounds generalizing start with
  | zero => exact ⟨0, rfl⟩
  | succ rounds ih =>
    rw [untilStable]
    split
    · exact ⟨0, rfl⟩
    · obtain ⟨passes, hpasses⟩ := @ih (all.foldl f start)
      exact ⟨passes + 1, hpasses⟩

variable {p : List β → α → Prop}
  (hkeep : ∀ revised b rest a, all = revised ++ b :: rest → p revised a →
    p (revised ++ [b]) (f a b))

include hkeep

theorem foldl_keeps {middle rest : List β} {a : α} (hsplit : all = revised ++ (middle ++ rest))
    (ha : p revised a) : p (revised ++ middle) (middle.foldl f a) := by
  induction middle generalizing revised a with
  | nil => rwa [List.append_nil]
  | cons b middle ih =>
    rw [List.append_cons, List.foldl_cons]
    exact ih (hsplit.trans (List.append_cons ..)) (hkeep _ b _ a hsplit ha)

/-- What holds at the start, is kept by every revision and carries over from one pass to the next
holds at every moment. -/
theorem stage_keeps {rest : List β} (hrestart : ∀ a, p all a → p [] a) (hstart : p [] start)
    (hsplit : all = revised ++ rest) : p revised (stage f all start passes revised) := by
  have hpass : p [] ((fun a ↦ all.foldl f a)^[passes] start) := by
    induction passes with
    | zero => exact hstart
    | succ passes ih =>
      rw [Function.iterate_succ_apply']
      exact hrestart _ (foldl_keeps hkeep (List.append_nil all).symm ih)
  exact foldl_keeps hkeep hsplit hpass

end Moments

end OwnershipFlow
