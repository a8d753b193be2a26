import Mathlib.Data.List.Nodup
import Mathlib.Data.List.Sort
import OwnershipFlow.Permission.Registry
import OwnershipFlow.Proofs.Collections

/-!
# The numbering of domains

The registry of a program names every domain once (`nodup_domains`), so a name has one number
(`domain?_inj`) and the entries of the registry are its domains in the order of their numbers
(`map_fst_entries`). A variable has the domain whose name it carries, if it is of linear kind, and
none otherwise (`domainOf?_eq_some_iff`).

The names are listed in ascending order (`pairwise_domains`), so they and their numbers are
determined by which names are carried at all, in whatever order the variables are declared
(`domains_congr`, `registry_numbers_names`). Nothing is asked of the program for this.
-/

set_option autoImplicit false
set_option relaxedAutoImplicit false

namespace OwnershipFlow

namespace Ident

variable {entity : Entity} {count : Nat}

/-- The identifiers numbered from zero on, up to a number that is not reached. -/
def below (count : Nat) : List (Ident entity) :=
  (List.range count).map (⟨·⟩)

theorem nodup_below : (below count : List (Ident entity)).Nodup :=
  List.Nodup.map (fun _ _ heq ↦ congrArg Ident.index heq) List.nodup_range

/-- Numbering the members of a list takes the identifiers up to its length. -/
theorem map_zipIdx_eq_below {α : Type} {l : List α} :
    l.zipIdx.map (fun x ↦ (⟨x.2⟩ : Ident entity)) = below l.length := by
  rw [below, List.range_eq_range', ← List.zipIdx_map_snd, List.map_map]
  rfl

end Ident

/-- Where no member is repeated, the first position of a member is its position. -/
theorem idxOf?_eq_some_iff_getElem? {α : Type} [DecidableEq α] {l : List α} {a : α} {i : Nat}
    (h : l.Nodup) : l.idxOf? a = some i ↔ l[i]? = some a := by
  rw [List.idxOf?_eq_some_iff, List.getElem?_eq_some_iff]
  refine exists_congr fun hi ↦ and_iff_left_of_imp fun ha j hj hja ↦ ?_
  have hij : j = i := h.getElem_inj_iff.mp (hja.trans ha.symm)
  exact hj.ne hij

/-- Mapping a part of a list in a way that keeps keys gives a part of the keys. -/
theorem sublist_map_filterMap {α β γ : Type} {l : List α} {f : α → Option β} {key : α → γ}
    {key' : β → γ} (h : ∀ a b, f a = some b → key' b = key a) :
    ((l.filterMap f).map key').Sublist (l.map key) := by
  induction l with
  | nil => exact .slnil
  | cons a rest ih =>
    cases ha : f a with
    | none =>
      rw [List.filterMap_cons_none ha, List.map_cons]
      exact ih.cons _
    | some b =>
      rw [List.filterMap_cons_some ha, List.map_cons, List.map_cons, h a b ha]
      exact ih.cons_cons _

theorem LinearKind.isLinear_iff {k : LinearKind} : k.isLinear = true ↔ k ≠ .ordinary := by
  cases k <;> decide

variable {p : Program} {r : Registry} {d d' : DomainId} {name : String} {v : VarId}
  {declared : Variable}

namespace Registry

theorem mem_entries : (d, name) ∈ r.entries ↔ r.domain? d = some name := by
  unfold entries domain?
  rw [List.mem_map]
  constructor
  · rintro ⟨⟨name, position⟩, hmem, heq⟩
    cases heq
    exact List.mem_zipIdx_iff_getElem?.mp hmem
  · exact fun h ↦ ⟨(name, d.index), List.mem_zipIdx_iff_getElem?.mpr h, rfl⟩

theorem map_fst_entries : r.entries.map Prod.fst = Ident.below r.domains.length := by
  unfold entries
  rw [List.map_map]
  exact Ident.map_zipIdx_eq_below

theorem map_snd_entries : r.entries.map Prod.snd = r.domains := by
  unfold entries
  rw [List.map_map]
  exact List.zipIdx_map_fst 0 r.domains

/-- Where no name is repeated, looking up by name undoes looking up by number. -/
theorem domainByName?_eq_some_iff (hnodup : r.domains.Nodup) :
    r.domainByName? name = some d ↔ r.domain? d = some name := by
  unfold domainByName? domain?
  rw [← idxOf?_eq_some_iff_getElem? hnodup, Option.map_eq_some_iff]
  constructor
  · rintro ⟨position, hposition, rfl⟩
    exact hposition
  · exact fun h ↦ ⟨d.index, h, rfl⟩

end Registry

namespace Program

theorem mem_domainNames :
    name ∈ p.domainNames ↔ ∃ declared ∈ p.vars, declared.linearDomain? = some name := by
  rw [domainNames, Std.ExtTreeSet.mem_toList, mem_set_ofList, List.mem_filterMap]

theorem nodup_domains (p : Program) : p.registry.domains.Nodup := by
  show p.domainNames.Nodup
  unfold domainNames
  exact nodup_toList _

/-- No two domains have the same name. -/
theorem domain?_inj (h : p.registry.domain? d = some name)
    (h' : p.registry.domain? d' = some name) : d = d' := by
  have hlt : d.index < p.registry.domains.length := (List.getElem?_eq_some_iff.mp h).1
  exact Ident.ext ((List.getElem?_inj hlt p.nodup_domains).mp (h.trans h'.symm))

theorem mem_declarations : (v, declared) ∈ p.declarations ↔ p.var? v = some declared := by
  unfold declarations var?
  rw [List.mem_map]
  constructor
  · rintro ⟨⟨declared, index⟩, hmem, heq⟩
    cases heq
    exact List.mem_zipIdx_iff_getElem?.mp hmem
  · exact fun h ↦ ⟨(declared, v.index), List.mem_zipIdx_iff_getElem?.mpr h, rfl⟩

theorem map_fst_declarations : p.declarations.map Prod.fst = Ident.below p.vars.length := by
  unfold declarations
  rw [List.map_map]
  exact Ident.map_zipIdx_eq_below

/-- A variable has a number for its domain if it is of linear kind and its domain is among the
names. -/
theorem mem_domainNumbers {names : List String} (hnames : names.Nodup) :
    (v, d) ∈ p.domainNumbers names ↔ ∃ declared name, p.var? v = some declared ∧
      declared.linearDomain? = some name ∧ names[d.index]? = some name := by
  unfold domainNumbers
  rw [List.mem_filterMap]
  constructor
  · rintro ⟨⟨v, declared⟩, hdeclared, heq⟩
    obtain ⟨position, hposition, heq⟩ := Option.map_eq_some_iff.mp heq
    obtain ⟨name, hname, hidx⟩ := Option.bind_eq_some_iff.mp hposition
    cases heq
    exact ⟨declared, name, mem_declarations.mp hdeclared, hname,
      (idxOf?_eq_some_iff_getElem? hnames).mp hidx⟩
  · rintro ⟨declared, name, hdeclared, hname, hposition⟩
    refine ⟨(v, declared), mem_declarations.mpr hdeclared, ?_⟩
    have hidx := (idxOf?_eq_some_iff_getElem? hnames).mpr hposition
    exact Option.map_eq_some_iff.mpr ⟨d.index, Option.bind_eq_some_iff.mpr ⟨name, hname, hidx⟩, rfl⟩

theorem nodup_keys_domainNumbers {names : List String} :
    ((p.domainNumbers names).map Prod.fst).Nodup := by
  have hsub : ((p.domainNumbers names).map Prod.fst).Sublist (p.declarations.map Prod.fst) := by
    refine sublist_map_filterMap fun x y hxy ↦ ?_
    obtain ⟨_, -, rfl⟩ := Option.map_eq_some_iff.mp hxy
    rfl
  rw [map_fst_declarations] at hsub
  exact Ident.nodup_below.sublist hsub

/-- The domain of a variable is the one whose name it carries, if it is of linear kind. -/
theorem domainOf?_eq_some_iff : p.registry.domainOf? v = some d ↔ ∃ declared name,
    p.var? v = some declared ∧ declared.linearDomain? = some name ∧
      p.registry.domain? d = some name :=
  (getElem?_map_ofList_iff nodup_keys_domainNumbers).trans (mem_domainNumbers p.nodup_domains)

/-- A variable of linear kind that names a domain has one. -/
theorem exists_domainOf? (hdeclared : p.var? v = some declared)
    (hname : declared.linearDomain? = some name) :
    ∃ d, p.registry.domainOf? v = some d ∧ p.registry.domain? d = some name := by
  have hmem : name ∈ p.registry.domains :=
    mem_domainNames.mpr ⟨declared, List.mem_of_getElem? hdeclared, hname⟩
  obtain ⟨position, hposition⟩ := List.mem_iff_getElem?.mp hmem
  exact ⟨⟨position⟩, domainOf?_eq_some_iff.mpr ⟨declared, name, hdeclared, hname, hposition⟩,
    hposition⟩

/-! ### The numbering follows the names -/

/-- A variable is of linear kind and names a domain. -/
def Carries (p : Program) (v : VarId) (name : String) : Prop :=
  ∃ declared, p.var? v = some declared ∧ declared.kind ≠ .ordinary ∧ declared.domain? = some name

variable {q : Program}

theorem carries_iff : p.Carries v name ↔
    ∃ declared, p.var? v = some declared ∧ declared.linearDomain? = some name := by
  refine exists_congr fun declared ↦ and_congr_right fun _ ↦ ?_
  rw [Variable.linearDomain?, Option.ite_none_right_eq_some, LinearKind.isLinear_iff]

theorem mem_domains : name ∈ p.registry.domains ↔ ∃ v, p.Carries v name := by
  refine mem_domainNames.trans ?_
  simp only [carries_iff]
  constructor
  · rintro ⟨declared, hdeclared, hname⟩
    obtain ⟨position, hposition⟩ := List.mem_iff_getElem?.mp hdeclared
    exact ⟨⟨position⟩, declared, hposition, hname⟩
  · rintro ⟨v, declared, hdeclared, hname⟩
    exact ⟨declared, List.mem_of_getElem? hdeclared, hname⟩

theorem pairwise_domains (p : Program) : p.registry.domains.Pairwise (· < ·) := by
  have hordered : p.domainNames.Pairwise fun a b ↦ compare a b = .lt :=
    Std.ExtTreeSet.ordered_toList
  exact hordered.imp fun hlt ↦ compareOfLessAndEq_eq_lt.mp hlt

theorem domainOf?_eq_some_iff_carries : p.registry.domainOf? v = some d ↔
    ∃ name, p.Carries v name ∧ p.registry.domain? d = some name := by
  rw [domainOf?_eq_some_iff]
  simp only [carries_iff]
  constructor
  · rintro ⟨declared, name, hdeclared, hname, hd⟩
    exact ⟨name, ⟨declared, hdeclared, hname⟩, hd⟩
  · rintro ⟨name, ⟨declared, hdeclared, hname⟩, hd⟩
    exact ⟨declared, name, hdeclared, hname, hd⟩

theorem domainOf?_eq_none_iff : p.registry.domainOf? v = none ↔ ∀ name, ¬ p.Carries v name := by
  rw [Option.eq_none_iff_forall_ne_some]
  constructor
  · rintro h name hcarries
    obtain ⟨declared, hdeclared, hname⟩ := carries_iff.mp hcarries
    obtain ⟨d, hd, -⟩ := exists_domainOf? hdeclared hname
    exact h d hd
  · rintro h d hd
    obtain ⟨name, hcarries, -⟩ := domainOf?_eq_some_iff_carries.mp hd
    exact h name hcarries

/-- Programs that carry the same names have the same domains under the same numbers. -/
theorem domains_congr (h : ∀ name, (∃ v, q.Carries v name) ↔ ∃ v, p.Carries v name) :
    q.registry.domains = p.registry.domains := by
  have hmem : ∀ name, name ∈ q.registry.domains ↔ name ∈ p.registry.domains := fun name ↦
    mem_domains.trans ((h name).trans mem_domains.symm)
  exact q.pairwise_domains.eq_of_mem_iff p.pairwise_domains hmem

theorem entries_congr (h : ∀ name, (∃ v, q.Carries v name) ↔ ∃ v, p.Carries v name) :
    q.registry.entries = p.registry.entries := by
  rw [Registry.entries, domains_congr h, Registry.entries]

/-- The order of declarations does not matter for which names are carried. -/
theorem exists_carries_iff_of_perm (h : q.vars.Perm p.vars) :
    (∃ v, q.Carries v name) ↔ ∃ v, p.Carries v name := by
  rw [← mem_domains, ← mem_domains]
  refine mem_domainNames.trans (Iff.trans ?_ mem_domainNames.symm)
  simp only [h.mem_iff]

/-- A variable gets the same number wherever it carries the same name, if the same names are carried
at all. -/
theorem domainOf?_congr (h : ∀ name, (∃ v, q.Carries v name) ↔ ∃ v, p.Carries v name) {w : VarId}
    (hw : ∀ name, q.Carries w name ↔ p.Carries v name) :
    q.registry.domainOf? w = p.registry.domainOf? v := by
  have hdomain : ∀ d, q.registry.domain? d = p.registry.domain? d := fun d ↦ by
    rw [Registry.domain?, domains_congr h, Registry.domain?]
  refine Option.ext fun d ↦ ?_
  simp only [domainOf?_eq_some_iff_carries, hw, hdomain]

/-- The domains of a program, accepted or not, are the names that some variable of linear kind
carries, numbered from zero on in strictly ascending order. Looking up by name undoes looking up by
number. A variable has the domain whose name it carries, and none if it is not declared, not of
linear kind, or names no domain. The numbers depend on which names are carried and on nothing else,
and a variable's domain depends on these names and on the one that it carries. So declarations in
another order get the same numbers and the same domains. -/
theorem registry_numbers_names (p : Program) :
    p.registry.entries.map Prod.fst = Ident.below p.registry.entries.length ∧
    (p.registry.entries.map Prod.snd).Pairwise (· < ·) ∧
    (∀ name, name ∈ p.registry.entries.map Prod.snd ↔ ∃ v, p.Carries v name) ∧
    (∀ d name, (d, name) ∈ p.registry.entries ↔ p.registry.domain? d = some name) ∧
    (∀ name d, p.registry.domainByName? name = some d ↔ p.registry.domain? d = some name) ∧
    (∀ v d, p.registry.domainOf? v = some d ↔
      ∃ name, p.Carries v name ∧ p.registry.domain? d = some name) ∧
    (∀ v, p.registry.domainOf? v = none ↔ ∀ name, ¬ p.Carries v name) ∧
    (∀ q : Program, (∀ name, (∃ v, q.Carries v name) ↔ ∃ v, p.Carries v name) →
      q.registry.entries = p.registry.entries ∧
      (∀ name, q.registry.domainByName? name = p.registry.domainByName? name) ∧
      ∀ v w, (∀ name, q.Carries w name ↔ p.Carries v name) →
        q.registry.domainOf? w = p.registry.domainOf? v) ∧
    ∀ q : Program, q.vars.Perm p.vars →
      q.registry.entries = p.registry.entries ∧
      ∀ v w, q.var? w = p.var? v → q.registry.domainOf? w = p.registry.domainOf? v := by
  rw [Registry.map_snd_entries]
  refine ⟨?_, p.pairwise_domains, fun name ↦ mem_domains, fun d name ↦ Registry.mem_entries,
    fun name d ↦ Registry.domainByName?_eq_some_iff p.nodup_domains,
    fun v d ↦ domainOf?_eq_some_iff_carries, fun v ↦ domainOf?_eq_none_iff,
    fun q hsame ↦ ⟨entries_congr hsame, fun name ↦ ?_, fun v w hw ↦ domainOf?_congr hsame hw⟩,
    fun q hperm ↦ ?_⟩
  · rw [Registry.map_fst_entries, ← Registry.map_snd_entries, List.length_map]
  · rw [Registry.domainByName?, domains_congr hsame, Registry.domainByName?]
  · have hsame : ∀ name, (∃ v, q.Carries v name) ↔ ∃ v, p.Carries v name :=
      fun name ↦ exists_carries_iff_of_perm hperm
    refine ⟨entries_congr hsame, fun v w hdeclared ↦ domainOf?_congr hsame fun name ↦ ?_⟩
    rw [Carries, Carries, hdeclared]

/-- Variables of two domains, one of which two variables share, a variable of ordinary kind that
names a domain, and one of linear kind that names none. -/
def mislabelled : Program :=
  { empty with vars :=
    [⟨"token", false, .linear, some "Token", none, .zero⟩,
      ⟨"count", false, .ordinary, some "Count", none, .zero⟩,
      ⟨"lock", true, .linearIn, some "Lock", none, .zero⟩,
      ⟨"loose", false, .linearOut, none, none, .zero⟩,
      ⟨"spare", false, .linearOut, some "Token", none, .zero⟩] }

/-- The same declarations from the last to the first. -/
def relabelled : Program :=
  { empty with vars := mislabelled.vars.reverse }

theorem registry_numbers_names_mislabelled :
    relabelled.vars.Perm mislabelled.vars ∧
    relabelled.registry.entries = mislabelled.registry.entries ∧
    mislabelled.registry.domainOf? ⟨0⟩ = some ⟨1⟩ ∧
    relabelled.registry.domainOf? ⟨4⟩ = some ⟨1⟩ ∧
    relabelled.registry.domainOf? ⟨0⟩ = some ⟨1⟩ ∧
    mislabelled.registry.domainOf? ⟨1⟩ = none := by
  obtain ⟨-, -, -, -, -, hdomain, hnone, hcarried, hperm⟩ := registry_numbers_names mislabelled
  have hreverse : relabelled.vars.Perm mislabelled.vars := List.reverse_perm _
  obtain ⟨hentries, hmoved⟩ := hperm relabelled hreverse
  obtain ⟨-, -, hshared⟩ := hcarried relabelled fun name ↦ exists_carries_iff_of_perm hreverse
  have hfirst : mislabelled.registry.domainOf? ⟨0⟩ = some ⟨1⟩ :=
    (hdomain _ _).mpr ⟨"Token", ⟨_, rfl, by decide, rfl⟩, by decide +kernel⟩
  refine ⟨hreverse, hentries, hfirst, (hmoved ⟨0⟩ ⟨4⟩ rfl).trans hfirst,
    (hshared ⟨0⟩ ⟨0⟩ fun name ↦ ?_).trans hfirst, (hnone ⟨1⟩).mpr ?_⟩
  · -- The last variable is another one than the first, but it carries the same name.
    constructor <;> rintro ⟨declared, hdeclared, -, hname⟩ <;> cases hdeclared <;>
      exact ⟨_, rfl, by decide, hname⟩
  · rintro name ⟨declared, hdeclared, hkind, -⟩
    cases hdeclared
    exact hkind rfl

end Program

end OwnershipFlow
