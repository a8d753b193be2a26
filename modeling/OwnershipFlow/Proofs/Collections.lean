import Mathlib.Data.List.Forall2
import Mathlib.Data.List.Induction
import Mathlib.Data.List.Nodup
import Mathlib.Data.List.Pairwise
import Mathlib.Data.List.Perm.Subperm
import OwnershipFlow.Ident

/-!
# Lists, and finite sets and maps over lawful orders

Lists whose members correspond one to one (`List.Forall₂`) have the same images under functions
that agree on corresponding members. Keys that compare as equal are equal where the order is
lawful, so the laws of finite sets and maps can be said in terms of equality. The values of a map
are those that some key has (`mem_values_iff`).

Tables can be united in any brackets, and the last one that has a key counts
(`getElem?_foldl_union_eq_findSome?`). Where tables agree as far as they overlap, it does not matter
which of them is the last (`getElem?_foldl_union`).
-/

set_option autoImplicit false
set_option relaxedAutoImplicit false

namespace OwnershipFlow

variable {α β : Type} [Ord α] [Std.TransOrd α] [Std.LawfulEqOrd α]

theorem Ident.compare_eq_lt_iff {entity : Entity} {a b : Ident entity} :
    compare a b = .lt ↔ a.index < b.index := by
  rw [Ident.compare_eq, Nat.compare_eq_lt]

/-- There is nothing to erase from a list without repetitions. -/
theorem eraseDups_of_nodup {γ : Type} [DecidableEq γ] {l : List γ} (h : l.Nodup) :
    l.eraseDups = l := by
  induction l with
  | nil => rfl
  | cons a rest ih =>
    rw [List.nodup_cons] at h
    have hrest : rest.filter (fun b ↦ !b == a) = rest := by
      refine List.filter_eq_self.mpr fun b hb ↦ ?_
      rw [Bool.not_eq_true', beq_eq_false_iff_ne]
      exact fun heq ↦ h.1 (heq ▸ hb)
    rw [List.eraseDups_cons, hrest, ih h.2]

/-- One more member at the end stays unless it is a repetition. -/
theorem eraseDups_append_singleton {γ : Type} [DecidableEq γ] {l : List γ} {a : γ} :
    (l ++ [a]).eraseDups = if a ∈ l then l.eraseDups else l.eraseDups ++ [a] := by
  rw [List.eraseDups_append, List.removeAll, List.filter_singleton, List.elem_eq_mem]
  by_cases ha : a ∈ l <;> simp [ha, List.eraseDups_cons]

/-- Having no member in common is a symmetric relation. -/
instance symm_onFun_disjoint {γ δ : Type} (f : γ → List δ) :
    Std.Symm (Function.onFun List.Disjoint f) :=
  ⟨fun _ _ hdisjoint _ hin hin' ↦ hdisjoint hin' hin⟩

/-- A member of a list in two parts stands in one of them. -/
theorem append_eq_append_cons {γ : Type} {first second before after : List γ} {a : γ}
    (h : first ++ second = before ++ a :: after) :
    (∃ rest, before = first ++ rest ∧ second = rest ++ a :: after) ∨
      ∃ rest, first = before ++ a :: rest ∧ after = rest ++ second := by
  rcases List.append_eq_append_iff.mp h with ⟨rest, hbefore, hsecond⟩ | ⟨rest, hfirst, hrest⟩
  · exact .inl ⟨rest, hbefore, hsecond⟩
  · cases rest with
    | nil =>
      rw [List.append_nil] at hfirst
      exact .inl ⟨[], by rw [hfirst, List.append_nil], hrest.symm⟩
    | cons x rest =>
      obtain ⟨rfl, hafter⟩ := List.cons.inj hrest
      exact .inr ⟨rest, hfirst, hafter⟩

section Correspondence

variable {α β γ : Type} {R : α → β → Prop} {l : List α} {u : List β}

theorem map_eq_map_of_forall₂ {f : α → γ} {g : β → γ} (h : List.Forall₂ R l u)
    (hfg : ∀ a b, R a b → f a = g b) : l.map f = u.map g := by
  rw [← List.forall₂_eq_eq_eq, List.forall₂_map_left_iff, List.forall₂_map_right_iff]
  exact h.imp hfg

theorem flatMap_eq_flatMap_of_forall₂ {f : α → List γ} {g : β → List γ} (h : List.Forall₂ R l u)
    (hfg : ∀ a ∈ l, ∀ b ∈ u, R a b → f a = g b) : l.flatMap f = u.flatMap g := by
  induction h with
  | nil => rfl
  | cons hab _ ih =>
    rw [List.flatMap_cons, List.flatMap_cons,
      hfg _ List.mem_cons_self _ List.mem_cons_self hab,
      ih fun a ha b hb ↦ hfg a (List.mem_cons_of_mem _ ha) b (List.mem_cons_of_mem _ hb)]

/-- What stands at one place of corresponding parts stands at one place of the whole lists. -/
theorem mem_zip_flatMap_of_forall₂ {δ : Type} {f : α → List γ} {g : β → List δ}
    (h : List.Forall₂ R l u) (hlength : ∀ a b, R a b → (g b).length = (f a).length) {a : α} {b : β}
    (hab : (a, b) ∈ l.zip u) {x : δ × γ} (hx : x ∈ (g b).zip (f a)) :
    x ∈ (u.flatMap g).zip (l.flatMap f) := by
  induction h with
  | nil => exact absurd hab List.not_mem_nil
  | cons hrel _ ih =>
    rw [List.flatMap_cons, List.flatMap_cons, List.zip_append (hlength _ _ hrel)]
    rcases List.mem_cons.mp hab with heq | hab
    · cases heq
      exact List.mem_append_left _ hx
    · exact List.mem_append_right _ (ih hab)

theorem exists_of_forall₂ {a : α} (h : List.Forall₂ R l u) (ha : a ∈ l) : ∃ b ∈ u, R a b := by
  induction h with
  | nil => exact absurd ha List.not_mem_nil
  | cons hab _ ih =>
    rcases List.mem_cons.mp ha with rfl | ha
    · exact ⟨_, List.mem_cons_self, hab⟩
    · obtain ⟨b, hb, hrel⟩ := ih ha
      exact ⟨b, List.mem_cons_of_mem _ hb, hrel⟩

end Correspondence

section Maps

variable {m : Std.ExtTreeMap α β} {k x : α} {v : β} {l : List (α × β)}

theorem mem_map_insert : x ∈ m.insert k v ↔ x = k ∨ x ∈ m := by
  rw [Std.ExtTreeMap.mem_insert, Std.LawfulEqCmp.compare_eq_iff_eq, eq_comm]

theorem mem_map_erase : x ∈ m.erase k ↔ k ≠ x ∧ x ∈ m := by
  rw [Std.ExtTreeMap.mem_erase, ne_eq, Std.LawfulEqCmp.compare_eq_iff_eq]

/-- A list of entries with distinct keys gives the map with these entries. -/
theorem getElem?_map_ofList (hkeys : (l.map Prod.fst).Nodup) (h : (k, v) ∈ l) :
    (Std.ExtTreeMap.ofList l)[k]? = some v := by
  refine Std.ExtTreeMap.getElem?_ofList_of_mem Std.ReflCmp.compare_self ?_ h
  refine (List.pairwise_map.mp hkeys).imp fun {a b} hne ↦ ?_
  rw [Std.LawfulEqCmp.compare_eq_iff_eq]
  exact hne

theorem nodup_keys_map (m : Std.ExtTreeMap α β) : m.keys.Nodup := by
  refine Std.ExtTreeMap.distinct_keys.imp fun hdistinct heq ↦ hdistinct ?_
  exact heq ▸ Std.ReflCmp.compare_self

omit [Std.LawfulEqOrd α] in
theorem values_eq_map_snd_toList : m.values = m.toList.map Prod.snd := by
  obtain ⟨⟨q⟩⟩ := m
  induction q using Quotient.ind with
  | _ t =>
    show t.inner.values = (Std.DTreeMap.Internal.Impl.Const.toList t.inner).map Prod.snd
    rw [Std.DTreeMap.Internal.Impl.values_eq_map_snd,
      Std.DTreeMap.Internal.Impl.Const.toList_eq_toListModel_map, List.map_map]
    rfl

theorem mem_values_iff : v ∈ m.values ↔ ∃ k : α, m[k]? = some v := by
  rw [values_eq_map_snd_toList, List.mem_map]
  constructor
  · rintro ⟨⟨k, _⟩, hmem, rfl⟩
    exact ⟨k, Std.ExtTreeMap.mem_toList_iff_getElem?_eq_some.mp hmem⟩
  · rintro ⟨k, hk⟩
    exact ⟨(k, v), Std.ExtTreeMap.mem_toList_iff_getElem?_eq_some.mpr hk, rfl⟩

/-- The values under distinct keys stand in a symmetric relation if all values in different places
do. -/
theorem rel_of_pairwise_values {R : β → β → Prop} [Std.Symm R] {w : β} (h : m.values.Pairwise R)
    (hne : k ≠ x) (hk : m[k]? = some v) (hx : m[x]? = some w) : R v w := by
  rw [values_eq_map_snd_toList, List.pairwise_map] at h
  have : Std.Symm fun a b : α × β ↦ R a.2 b.2 := ⟨fun _ _ hab ↦ Std.Symm.symm _ _ hab⟩
  exact h.forall (Std.ExtTreeMap.mem_toList_iff_getElem?_eq_some.mpr hk)
    (Std.ExtTreeMap.mem_toList_iff_getElem?_eq_some.mpr hx) fun heq ↦ hne (congrArg Prod.fst heq)

/-- Lists drawn from all values are distinct as a whole if each of them is, and those drawn from the
values of different keys have nothing in common. -/
theorem nodup_flatMap_values_iff {γ : Type} {f : β → List γ} : (m.values.flatMap f).Nodup ↔
    (∀ (k : α) v, m[k]? = some v → (f v).Nodup) ∧
      ∀ (k : α) v (x : α) w, m[k]? = some v → m[x]? = some w → k ≠ x → (f v).Disjoint (f w) := by
  rw [List.nodup_flatMap]
  constructor
  · rintro ⟨hnodup, hdisjoint⟩
    exact ⟨fun k v hk ↦ hnodup v (mem_values_iff.mpr ⟨k, hk⟩), fun k v x w hk hx hne ↦
      rel_of_pairwise_values (R := Function.onFun List.Disjoint f) hdisjoint hne hk hx⟩
  · rintro ⟨hnodup, hdisjoint⟩
    refine ⟨fun v hv ↦ ?_, ?_⟩
    · obtain ⟨k, hk⟩ := mem_values_iff.mp hv
      exact hnodup k v hk
    · rw [values_eq_map_snd_toList, List.pairwise_map]
      refine Std.ExtTreeMap.distinct_keys_toList.imp_of_mem fun {a b} ha hb hne ↦ ?_
      rw [Std.LawfulEqCmp.compare_eq_iff_eq] at hne
      exact hdisjoint a.1 a.2 b.1 b.2 (Std.ExtTreeMap.mem_toList_iff_getElem?_eq_some.mp ha)
        (Std.ExtTreeMap.mem_toList_iff_getElem?_eq_some.mp hb) hne

/-- Changing the value of a key is putting in the changed value. -/
theorem modify_eq_insert {f : β → β} (h : m[k]? = some v) : m.modify k f = m.insert k (f v) := by
  refine Std.ExtTreeMap.ext_getElem? fun x ↦ ?_
  rw [Std.ExtTreeMap.getElem?_modify, Std.ExtTreeMap.getElem?_insert, h]
  rfl

/-- Without a key there is no value to change. -/
theorem modify_eq_self {f : β → β} (h : m[k]? = none) : m.modify k f = m := by
  refine Std.ExtTreeMap.ext_getElem? fun x ↦ ?_
  rw [Std.ExtTreeMap.getElem?_modify]
  split_ifs with hx
  · rw [← Std.LawfulEqCmp.compare_eq_iff_eq.mp hx, h]
    rfl
  · rfl

variable [DecidableEq α]

theorem getElem?_map_insert : (m.insert k v)[x]? = if k = x then some v else m[x]? := by
  simp only [Std.ExtTreeMap.getElem?_insert, Std.LawfulEqCmp.compare_eq_iff_eq]

theorem eq_or_of_getElem?_map_insert {w : β} (h : (m.insert k v)[x]? = some w) :
    (x = k ∧ w = v) ∨ (x ≠ k ∧ m[x]? = some w) := by
  rw [getElem?_map_insert] at h
  by_cases hk : k = x
  · rw [if_pos hk] at h
    exact .inl ⟨hk.symm, (Option.some.inj h).symm⟩
  · rw [if_neg hk] at h
    exact .inr ⟨Ne.symm hk, h⟩

/-- Putting in the value that a key has changes nothing. -/
theorem map_insert_eq_self (h : m[k]? = some v) : m.insert k v = m := by
  refine Std.ExtTreeMap.ext_getElem? fun x ↦ ?_
  rw [getElem?_map_insert]
  split_ifs with hk
  · rw [← hk, h]
  · rfl

/-- Putting in a value unless the key has one leaves the values that are there. -/
theorem getElem?_map_insertIfNew :
    (m.insertIfNew k v)[x]? = m[x]?.or (if k = x then some v else none) := by
  simp only [Std.ExtTreeMap.getElem?_insertIfNew, Std.LawfulEqCmp.compare_eq_iff_eq]
  by_cases hx : k = x
  · subst hx
    by_cases hk : k ∈ m
    · obtain ⟨w, hw⟩ := Option.isSome_iff_exists.mp (Std.ExtTreeMap.mem_iff_isSome_getElem?.mp hk)
      rw [if_neg fun h ↦ h.2 hk, hw, Option.some_or]
    · rw [if_pos ⟨rfl, hk⟩, Std.ExtTreeMap.getElem?_eq_none hk, if_pos rfl, Option.none_or]
  · rw [if_neg fun h ↦ hx h.1, if_neg hx, Option.or_none]

theorem getElem?_map_erase : (m.erase k)[x]? = if k = x then none else m[x]? := by
  simp only [Std.ExtTreeMap.getElem?_erase, Std.LawfulEqCmp.compare_eq_iff_eq]

theorem mem_map_ofList : x ∈ Std.ExtTreeMap.ofList l ↔ x ∈ l.map Prod.fst := by
  rw [Std.ExtTreeMap.mem_ofList, List.contains_iff_mem]

theorem getElem?_map_ofList_eq_none (h : k ∉ l.map Prod.fst) :
    (Std.ExtTreeMap.ofList l)[k]? = none :=
  Std.ExtTreeMap.getElem?_eq_none fun hmem ↦ h (mem_map_ofList.mp hmem)

/-- The last entries of a list count where they have distinct keys. -/
theorem getElem?_map_ofList_append {before : List (α × β)} (hkeys : (l.map Prod.fst).Nodup)
    (h : (k, v) ∈ l) : (Std.ExtTreeMap.ofList (before ++ l))[k]? = some v := by
  rw [Std.ExtTreeMap.ofList_eq_insertMany_empty, Std.ExtTreeMap.insertMany_append]
  refine Std.ExtTreeMap.getElem?_insertMany_list_of_mem Std.ReflCmp.compare_self ?_ h
  refine (List.pairwise_map.mp hkeys).imp fun {a b} hne ↦ ?_
  rw [Std.LawfulEqCmp.compare_eq_iff_eq]
  exact hne

omit [Std.LawfulEqOrd α] [DecidableEq α] in
/-- The last entry of a list is put in last. -/
theorem map_ofList_append_singleton :
    Std.ExtTreeMap.ofList (l ++ [(k, v)]) = (Std.ExtTreeMap.ofList l).insert k v := by
  rw [Std.ExtTreeMap.ofList_eq_foldl, List.foldl_append, ← Std.ExtTreeMap.ofList_eq_foldl,
    List.foldl_cons, List.foldl_nil]

/-- What a map made from a list has is in the list, also where keys are repeated. -/
theorem mem_of_getElem?_map_ofList (h : (Std.ExtTreeMap.ofList l)[k]? = some v) : (k, v) ∈ l := by
  induction l using List.reverseRecOn with
  | nil => simp at h
  | append_singleton rest x ih =>
    rw [map_ofList_append_singleton] at h
    rcases eq_or_of_getElem?_map_insert h with ⟨rfl, rfl⟩ | ⟨-, h⟩
    · exact List.mem_append_right _ List.mem_cons_self
    · exact List.mem_append_left _ (ih h)

/-- Values that are made from their keys do not depend on which of several entries counts. -/
theorem getElem?_map_ofList_map {γ : Type} {members : List γ} {key : γ → α} {value : α → β} :
    (Std.ExtTreeMap.ofList (members.map fun c ↦ (key c, value (key c))))[x]? =
      if x ∈ members.map key then some (value x) else none := by
  have hkeys : (members.map fun c ↦ (key c, value (key c))).map Prod.fst = members.map key :=
    List.map_map
  split_ifs with hx
  · obtain ⟨v, hv⟩ := Option.isSome_iff_exists.mp
      (Std.ExtTreeMap.mem_iff_isSome_getElem?.mp (mem_map_ofList.mpr (hkeys ▸ hx)))
    obtain ⟨c, -, heq⟩ := List.mem_map.mp (mem_of_getElem?_map_ofList hv)
    obtain ⟨rfl, rfl⟩ := Prod.mk.inj heq
    exact hv
  · exact getElem?_map_ofList_eq_none (hkeys ▸ hx)

end Maps

section Entries

variable [DecidableEq α] {l : List (α × β)} {k : α} {v : β} (hkeys : (l.map Prod.fst).Nodup)

include hkeys

theorem getElem?_map_ofList_iff : (Std.ExtTreeMap.ofList l)[k]? = some v ↔ (k, v) ∈ l :=
  ⟨mem_of_getElem?_map_ofList, getElem?_map_ofList hkeys⟩

omit [DecidableEq α] in
theorem size_map_ofList : (Std.ExtTreeMap.ofList l).size = l.length := by
  refine Std.ExtTreeMap.size_ofList ((List.pairwise_map.mp hkeys).imp fun {a b} hne ↦ ?_)
  rw [Std.LawfulEqCmp.compare_eq_iff_eq]
  exact hne

end Entries

section Unions

variable {tables : List (Std.ExtTreeMap α β)} {m : Std.ExtTreeMap α β} {k : α} {entry : Option β}

instance associative_union : Std.Associative fun s t : Std.ExtTreeMap α β ↦ s ∪ t :=
  ⟨fun s t u ↦ Std.ExtTreeMap.ext_getElem? fun {k} ↦ by
    rw [Std.ExtTreeMap.getElem?_union, Std.ExtTreeMap.getElem?_union,
      Std.ExtTreeMap.getElem?_union, Std.ExtTreeMap.getElem?_union, Option.or_assoc]⟩

instance lawfulIdentity_union :
    Std.LawfulIdentity (fun s t : Std.ExtTreeMap α β ↦ s ∪ t) ∅ where
  left_id s := Std.ExtTreeMap.ext_getElem? fun {k} ↦ by
    rw [Std.ExtTreeMap.getElem?_union, Std.ExtTreeMap.getElem?_empty, Option.or_none]
  right_id s := Std.ExtTreeMap.ext_getElem? fun {k} ↦ by
    rw [Std.ExtTreeMap.getElem?_union, Std.ExtTreeMap.getElem?_empty, Option.none_or]

omit [Std.LawfulEqOrd α]

/-- The last table that has a key counts. -/
theorem getElem?_foldl_union_eq_findSome? : (tables.foldl (· ∪ ·) m)[k]? =
    (tables.reverse.findSome? (·[k]?)).or m[k]? := by
  induction tables generalizing m with
  | nil => rw [List.foldl_nil, List.reverse_nil, List.findSome?_nil, Option.none_or]
  | cons t rest ih =>
    rw [List.foldl_cons, ih, Std.ExtTreeMap.getElem?_union, List.reverse_cons,
      List.findSome?_append, List.findSome?_singleton, Option.or_assoc]

/-- Where tables agree as far as they have an entry, their union has the entry of any of them. -/
theorem getElem?_foldl_union (hall : ∀ t ∈ tables, t[k]? = none ∨ t[k]? = entry)
    (hsome : ∃ t ∈ tables, t[k]? = entry) (h : m[k]? = none) :
    (tables.foldl (· ∪ ·) m)[k]? = entry := by
  rw [getElem?_foldl_union_eq_findSome?, h, Option.or_none]
  cases hfind : tables.reverse.findSome? (·[k]?) with
  | none =>
    obtain ⟨t, ht, rfl⟩ := hsome
    exact (List.findSome?_eq_none_iff.mp hfind t (List.mem_reverse.mpr ht)).symm
  | some x =>
    obtain ⟨t, ht, hx⟩ := List.exists_of_findSome?_eq_some hfind
    rw [← hx]
    refine (hall t (List.mem_reverse.mp ht)).resolve_left fun hnone ↦ ?_
    rw [hnone] at hx
    cases hx

/-- An entry of a union comes from one of the tables. -/
theorem exists_of_getElem?_foldl_union {x : β} (h : (tables.foldl (· ∪ ·) m)[k]? = some x) :
    m[k]? = some x ∨ ∃ t ∈ tables, t[k]? = some x := by
  rw [getElem?_foldl_union_eq_findSome?, Option.or_eq_some_iff] at h
  rcases h with hfind | ⟨-, hm⟩
  · obtain ⟨t, ht, hx⟩ := List.exists_of_findSome?_eq_some hfind
    exact .inr ⟨t, List.mem_reverse.mp ht, hx⟩
  · exact .inl hm

end Unions

section Sets

variable {s t : Std.ExtTreeSet α} {k x : α}

theorem mem_set_insert : x ∈ s.insert k ↔ x = k ∨ x ∈ s := by
  rw [Std.ExtTreeSet.mem_insert, Std.LawfulEqCmp.compare_eq_iff_eq, eq_comm]

theorem mem_set_ofList [DecidableEq α] {l : List α} : x ∈ Std.ExtTreeSet.ofList l ↔ x ∈ l := by
  rw [Std.ExtTreeSet.mem_ofList, List.contains_iff_mem]

theorem nodup_toList (s : Std.ExtTreeSet α) : s.toList.Nodup := by
  refine Std.ExtTreeSet.distinct_toList.imp fun hdistinct heq ↦ hdistinct ?_
  exact heq ▸ Std.ReflCmp.compare_self

/-- A set with all its members among those of another set, but not equal to it, is smaller. -/
theorem size_lt_of_subset_of_ne (hsub : ∀ x ∈ s, x ∈ t) (hne : s ≠ t) : s.size < t.size := by
  have hsubperm : List.Subperm s.toList t.toList :=
    (nodup_toList s).subperm fun x hx ↦
      Std.ExtTreeSet.mem_toList.mpr (hsub x (Std.ExtTreeSet.mem_toList.mp hx))
  rw [← Std.ExtTreeSet.length_toList, ← Std.ExtTreeSet.length_toList]
  by_contra hge
  have hperm := hsubperm.perm_of_length_le (Nat.le_of_not_lt hge)
  refine hne (Std.ExtTreeSet.ext_mem fun x ↦ ?_)
  rw [← Std.ExtTreeSet.mem_toList, ← Std.ExtTreeSet.mem_toList, hperm.mem_iff]

end Sets

end OwnershipFlow
