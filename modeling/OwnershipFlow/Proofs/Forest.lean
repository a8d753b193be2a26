import Mathlib.Data.Finset.Card
import Mathlib.Logic.Relation
import OwnershipFlow.Origins
import OwnershipFlow.Proofs.Collections

/-!
# Links recorded in any order

Links from derived nodes to their sources form a forest if every node has one source at most and
no node is among its own ancestors (`Origins.IsForest`). Recording the links of a forest, in any
order, one by one or copy by copy, and any of them more than once, leads to the same map: every
derived node stands for the root of its tree (`ofRequests_eq_roots`).

The invariant is that the map is right for the links recorded so far, whichever they are
(`Resolves`). A further link hangs a tree below a node of another one. What changes is that the
nodes of the lower tree now stand for the root of the upper one (`Resolves.insert`), and the two
roots differ, since otherwise the link would close a cycle.
-/

set_option autoImplicit false
set_option relaxedAutoImplicit false

namespace OwnershipFlow.Origins

/-! ### Forests -/

/-- A link leads from a derived node to its source. -/
def Link (links : Set (Node × Node)) (derived source : Node) : Prop :=
  (derived, source) ∈ links

/-- A node has one source at most, and going on to sources never leads back. -/
structure IsForest (links : Set (Node × Node)) : Prop where
  source_unique : ∀ n a b, Link links n a → Link links n b → a = b
  acyclic : ∀ n, ¬ Relation.TransGen (Link links) n n

/-- The root of the tree of a node: the links lead there, and no further. -/
structure IsRoot (links : Set (Node × Node)) (n root : Node) : Prop where
  leads : Relation.ReflTransGen (Link links) n root
  top : ∀ source, ¬ Link links root source

section Forests

variable {links : Set (Node × Node)} {n root other : Node}

theorem Link.mono {more : Set (Node × Node)} (hsub : links ⊆ more) :
    ∀ a b, Link links a b → Link more a b :=
  fun _ _ h ↦ hsub h

/-- The tree of a node has one root. -/
theorem IsRoot.unique (h : IsRoot links n root) (h' : IsRoot links n other)
    (hforest : IsForest links) : other = root := by
  obtain ⟨hleads, htop⟩ := h
  induction hleads using Relation.ReflTransGen.head_induction_on with
  | refl =>
    rcases h'.leads.cases_head with heq | ⟨source, hlink, -⟩
    · exact heq.symm
    · exact absurd hlink (htop source)
  | head hlink _ ih =>
    rcases h'.leads.cases_head with rfl | ⟨source, hlink', hrest⟩
    · exact absurd hlink (h'.top _)
    · obtain rfl := hforest.source_unique _ _ _ hlink hlink'
      exact ih ⟨hrest, h'.top⟩

/-- Links that lead to nodes of smaller numbers form a forest if no node has two sources. -/
theorem isForest_of_index_lt (hunique : ∀ n a b, Link links n a → Link links n b → a = b)
    (hlt : ∀ n source, Link links n source → source.index < n.index) : IsForest links := by
  refine ⟨hunique, fun n hcycle ↦ ?_⟩
  have hless : ∀ m, Relation.TransGen (Link links) n m → m.index < n.index := by
    intro m hleads
    induction hleads with
    | single hlink => exact hlt _ _ hlink
    | tail _ hlink ih => exact (hlt _ _ hlink).trans ih
  exact Nat.lt_irrefl _ (hless n hcycle)

end Forests

/-! ### One link after another -/

/-- A map of origins that is right for links: every node stands for a root that the links lead to,
and the derived nodes are those that have a source. -/
structure Resolves (o : Origins) (links : Set (Node × Node)) : Prop where
  isRoot : ∀ n, IsRoot links n (o.resolve n)
  derived : ∀ n, (o.get? n).isSome = true ↔ ∃ source, Link links n source

theorem resolves_empty : empty.Resolves ∅ where
  isRoot n := by
    rw [resolve_of_get?_eq_none (get?_empty n)]
    exact ⟨.refl, fun source ↦ Set.notMem_empty (n, source)⟩
  derived n := by
    rw [get?_empty]
    exact iff_of_false Bool.false_ne_true fun ⟨source, h⟩ ↦ Set.notMem_empty (n, source) h

section Steps

variable {o : Origins} {links : Set (Node × Node)} {derived source : Node}

/-- A further link that closes no cycle keeps the map right. -/
theorem Resolves.insert (h : o.Resolves links)
    (hacyclic : ∀ n, ¬ Relation.TransGen (Link (links ∪ {(derived, source)})) n n) :
    (o.insert derived source).Resolves (links ∪ {(derived, source)}) := by
  have hold : ∀ {a b}, Relation.ReflTransGen (Link links) a b →
      Relation.ReflTransGen (Link (links ∪ {(derived, source)})) a b :=
    fun hleads ↦ Relation.ReflTransGen.mono (Link.mono Set.subset_union_left) _ _ hleads
  have hnew : Link (links ∪ {(derived, source)}) derived source := .inr rfl
  have hroot := h.isRoot source
  have hne : o.resolve source ≠ derived := fun heq ↦
    hacyclic derived (.head' hnew (heq ▸ hold hroot.leads))
  have htop : ∀ m, m ≠ derived → (∀ a, ¬ Link links m a) →
      ∀ a, ¬ Link (links ∪ {(derived, source)}) m a := by
    rintro m hm hnone a (hlink | heq)
    · exact hnone a hlink
    · exact hm (congrArg Prod.fst heq)
  -- The derived node, and whatever stood for it, now hangs below the root of its source.
  have hbelow : ∀ m, Relation.ReflTransGen (Link links) m derived →
      IsRoot (links ∪ {(derived, source)}) m (o.resolve source) := fun m hleads ↦
    ⟨(hold hleads).trans (.head hnew (hold hroot.leads)), htop _ hne hroot.top⟩
  constructor
  case isRoot =>
    intro m
    have hget := get?_insert hne m
    have hm := h.isRoot m
    unfold resolve
    rw [hget]
    unfold resolve at hm
    by_cases hderived : m = derived
    · rw [if_pos hderived, Option.getD_some]
      exact hbelow m (hderived ▸ .refl)
    · rw [if_neg hderived]
      cases htarget : o.get? m with
      | none =>
        rw [htarget, Option.getD_none] at hm
        exact ⟨.refl, htop m hderived hm.top⟩
      | some target =>
        rw [htarget, Option.getD_some] at hm
        rw [Option.map_some, Option.getD_some]
        split_ifs with heq
        · exact hbelow m (heq ▸ hm.leads)
        · exact ⟨hold hm.leads, htop target heq hm.top⟩
  case derived =>
    intro m
    rw [get?_insert hne m]
    by_cases hderived : m = derived
    · rw [if_pos hderived]
      exact iff_of_true rfl ⟨source, hderived ▸ hnew⟩
    · rw [if_neg hderived, Option.isSome_map, h.derived]
      refine exists_congr fun a ↦ ⟨.inl, fun hlink ↦ ?_⟩
      exact hlink.resolve_right fun heq ↦ hderived (congrArg Prod.fst heq)

/-- So does a list of links, as long as all of them together close no cycle. -/
theorem Resolves.record {pairs : List (Node × Node)} (h : o.Resolves links)
    (hacyclic : ∀ n, ¬ Relation.TransGen (Link (links ∪ {x | x ∈ pairs})) n n) :
    (o.record pairs).Resolves (links ∪ {x | x ∈ pairs}) := by
  induction pairs generalizing o links with
  | nil =>
    have hnil : links ∪ {x | x ∈ ([] : List (Node × Node))} = links := by simp
    rw [hnil]
    exact h
  | cons x rest ih =>
    have hcons : links ∪ {y | y ∈ x :: rest} = links ∪ {x} ∪ {y | y ∈ rest} := by
      ext y
      simp [or_assoc, or_left_comm]
    rw [hcons] at hacyclic ⊢
    refine ih (h.insert fun n hcycle ↦ hacyclic n ?_) hacyclic
    exact Relation.TransGen.mono (Link.mono Set.subset_union_left) _ _ hcycle

end Steps

/-! ### Requests -/

/-- A request to record a link, or the links of a copy. -/
inductive Request
  | link (derived source : Node)
  | copy (links : List (Node × Node))
  deriving DecidableEq

namespace Request

/-- The links that a request records. -/
def links : Request → List (Node × Node)
  | link derived source => [(derived, source)]
  | copy links => links

/-- The map after a request. -/
def serve (o : Origins) : Request → Origins
  | link derived source => o.insert derived source
  | copy links => o.record links

theorem serve_eq_record {o : Origins} (r : Request) : r.serve o = o.record r.links := by
  cases r <;> rfl

end Request

/-- The map after requests, starting without derived nodes. -/
def ofRequests (requests : List Request) : Origins :=
  requests.foldl Request.serve empty

theorem ofRequests_eq_record (requests : List Request) :
    ofRequests requests = empty.record (requests.flatMap Request.links) := by
  unfold ofRequests
  generalize empty = o
  induction requests generalizing o with
  | nil => rfl
  | cons r rest ih =>
    rw [List.foldl_cons, ih, r.serve_eq_record, List.flatMap_cons, record, record, record,
      List.foldl_append]

section Forest

variable {links : Finset (Node × Node)} {requests : List Request}
  (hforest : IsForest (links : Set (Node × Node)))
  (hrequests : ∀ x, x ∈ requests.flatMap Request.links ↔ x ∈ links)

include hforest hrequests

theorem resolves_ofRequests : (ofRequests requests).Resolves links := by
  have hall : (∅ ∪ {x | x ∈ requests.flatMap Request.links} : Set (Node × Node)) = links := by
    ext x
    rw [Set.empty_union, Finset.mem_coe, ← hrequests]
    rfl
  have hacyclic : ∀ n, ¬ Relation.TransGen
      (Link (∅ ∪ {x | x ∈ requests.flatMap Request.links})) n n := hall ▸ hforest.acyclic
  have hrecord := resolves_empty.record hacyclic
  rwa [hall, ← ofRequests_eq_record] at hrecord

theorem isSome_get?_ofRequests (n : Node) :
    ((ofRequests requests).get? n).isSome = true ↔ n ∈ links.image Prod.fst := by
  rw [(resolves_ofRequests hforest hrequests).derived, Finset.mem_image]
  constructor
  · rintro ⟨source, hlink⟩
    exact ⟨(n, source), hlink, rfl⟩
  · rintro ⟨⟨derived, source⟩, hlink, rfl⟩
    exact ⟨source, hlink⟩

theorem get?_ofRequests (n : Node) : (ofRequests requests).get? n =
    if n ∈ links.image Prod.fst then some ((ofRequests requests).resolve n) else none := by
  have hderived := isSome_get?_ofRequests hforest hrequests n
  unfold resolve
  split_ifs with hn
  · obtain ⟨root, hroot⟩ := Option.isSome_iff_exists.mp (hderived.mpr hn)
    rw [hroot, Option.getD_some]
  · exact Option.not_isSome_iff_eq_none.mp (mt hderived.mp hn)

theorem size_ofRequests : (ofRequests requests).size = (links.image Prod.fst).card := by
  have hkeys : (ofRequests requests).links.keys.toFinset = links.image Prod.fst := by
    ext n
    rw [List.mem_toFinset, Std.ExtTreeMap.mem_keys, Std.ExtTreeMap.mem_iff_isSome_getElem?]
    exact isSome_get?_ofRequests hforest hrequests n
  rw [← hkeys, List.toFinset_card_of_nodup (nodup_keys_map _), Std.ExtTreeMap.length_keys]
  rfl

theorem ofRequests_eq {other : List Request}
    (hother : ∀ x, x ∈ other.flatMap Request.links ↔ x ∈ links) :
    ofRequests other = ofRequests requests := by
  have hresolve : ∀ n, (ofRequests other).resolve n = (ofRequests requests).resolve n := fun n ↦
    ((resolves_ofRequests hforest hrequests).isRoot n).unique
      ((resolves_ofRequests hforest hother).isRoot n) hforest
  have hget : ∀ n, (ofRequests other).get? n = (ofRequests requests).get? n := fun n ↦ by
    rw [get?_ofRequests hforest hother, get?_ofRequests hforest hrequests, hresolve]
  exact congrArg Origins.mk (Std.ExtTreeMap.ext_getElem? hget)

end Forest

/-- Recording the links of a forest in any order and with any repetitions, one by one or copy by
copy, leads to the same map. Every node stands for the root of its tree, and the derived nodes are
those that have a source. -/
theorem ofRequests_eq_roots (links : Finset (Node × Node))
    (hforest : IsForest (links : Set (Node × Node))) (requests : List Request)
    (hrequests : ∀ x, x ∈ requests.flatMap Request.links ↔ x ∈ links) :
    (∀ n, ∃ root, IsRoot (links : Set (Node × Node)) n root ∧
      (∀ other, IsRoot (links : Set (Node × Node)) n other → other = root) ∧
      (ofRequests requests).resolve n = root ∧
      (ofRequests requests).get? n = if n ∈ links.image Prod.fst then some root else none) ∧
    (ofRequests requests).size = (links.image Prod.fst).card ∧
    ∀ other : List Request, (∀ x, x ∈ other.flatMap Request.links ↔ x ∈ links) →
      ofRequests other = ofRequests requests := by
  refine ⟨fun n ↦ ⟨_, (resolves_ofRequests hforest hrequests).isRoot n, fun other hother ↦ ?_, rfl,
    get?_ofRequests hforest hrequests n⟩, size_ofRequests hforest hrequests,
    fun other hother ↦ ofRequests_eq hforest hrequests hother⟩
  exact ((resolves_ofRequests hforest hrequests).isRoot n).unique hother hforest

/-- Links of copies: of a command, of its copy, and of another copy of the copy. -/
def lineage : Finset (Node × Node) :=
  {(.command ⟨1⟩, .command ⟨0⟩), (.command ⟨2⟩, .command ⟨1⟩), (.command ⟨3⟩, .command ⟨1⟩)}

theorem isForest_lineage : IsForest (lineage : Set (Node × Node)) := by
  have hunique : ∀ x ∈ lineage, ∀ y ∈ lineage, x.1 = y.1 → x.2 = y.2 := by decide
  have hlt : ∀ x ∈ lineage, x.2.index < x.1.index := by decide
  exact isForest_of_index_lt (fun n a b ha hb ↦ hunique (n, a) ha (n, b) hb rfl)
    fun n source hlink ↦ hlt (n, source) hlink

/-- Requests that record these links from the leaves up, one of them twice. -/
def leavesFirst : List Request :=
  [.link (.command ⟨3⟩) (.command ⟨1⟩),
    .copy [(.command ⟨2⟩, .command ⟨1⟩), (.command ⟨1⟩, .command ⟨0⟩)],
    .link (.command ⟨2⟩) (.command ⟨1⟩)]

theorem ofRequests_eq_roots_lineage : IsForest (lineage : Set (Node × Node)) ∧
    (∀ x, x ∈ leavesFirst.flatMap Request.links ↔ x ∈ lineage) ∧
    (ofRequests leavesFirst).resolve (.command ⟨3⟩) = .command ⟨0⟩ ∧
    (ofRequests leavesFirst).size = 3 := by
  have hrequests : ∀ x, x ∈ leavesFirst.flatMap Request.links ↔ x ∈ lineage := fun x ↦ by
    have hlist : (leavesFirst.flatMap Request.links).toFinset = lineage := by decide
    rw [← hlist, List.mem_toFinset]
  obtain ⟨hroots, hsize, -⟩ :=
    ofRequests_eq_roots lineage isForest_lineage leavesFirst hrequests
  obtain ⟨root, -, hunique, hresolve, -⟩ := hroots (.command ⟨3⟩)
  have hlink : ∀ x ∈ lineage, Link (lineage : Set (Node × Node)) x.1 x.2 := fun _ hx ↦ hx
  have htop : ∀ x ∈ lineage, x.1 ≠ .command ⟨0⟩ := by decide
  have hzero : IsRoot (lineage : Set (Node × Node)) (.command ⟨3⟩) (.command ⟨0⟩) := by
    refine ⟨.head (hlink (.command ⟨3⟩, .command ⟨1⟩) (by decide))
      (.single (hlink (.command ⟨1⟩, .command ⟨0⟩) (by decide))), fun source hsource ↦ ?_⟩
    exact htop (.command ⟨0⟩, source) hsource rfl
  exact ⟨isForest_lineage, hrequests, hresolve.trans (hunique _ hzero).symm,
    hsize.trans (by decide)⟩

end OwnershipFlow.Origins
