import OwnershipFlow.Config
import OwnershipFlow.Proofs.Scope

/-!
# Resolving the names of a configuration

A configuration mentions names of domains and names of variables (`Config.mentions`). A name means
something if it is that of a domain of the registry, or of exactly one variable of the program
(`Means`); otherwise there is one thing wrong with it (`Fails`). Looking up a name finds what it
means or says what is wrong (`looksUp_namedDomain`, `looksUp_uniqueVar`).

So a configuration is resolved exactly if all its names mean something. Different names are not
those of one domain or one variable (`namedDomain_inj`, `uniqueVar_inj`), so no pair of names takes
the place of another one, and the settings have one entry for each pair (`getElem?_ofList_found`,
`size_ofList_found`). If some name means nothing, the first one in order is reported (`FirstFault`).
The program need not be the one that was checked (`resolve_eq_named`).
-/

set_option autoImplicit false
set_option relaxedAutoImplicit false

namespace OwnershipFlow

variable {p : Program} {c : Checked} {config : Config} {name : String} {v : VarId} {d : DomainId}
  {e : ConfigError}

/-! ### Results -/

section Results

variable {ε α β : Type} {x : Except ε α} {f : α → β} {g : α → Except ε β} {b : β} {fault : ε}

theorem bind_eq_ok_iff : x.bind g = .ok b ↔ ∃ a, x = .ok a ∧ g a = .ok b := by
  cases x <;> simp [Except.bind]

theorem bind_eq_error_iff :
    x.bind g = .error fault ↔ x = .error fault ∨ ∃ a, x = .ok a ∧ g a = .error fault := by
  cases x <;> simp [Except.bind]

theorem map_eq_ok_iff : x.map f = .ok b ↔ ∃ a, x = .ok a ∧ f a = b := by
  cases x <;> simp [Except.map]

theorem map_eq_error_iff : x.map f = .error fault ↔ x = .error fault := by
  cases x <;> simp [Except.map]

end Results

/-! ### Names of variables and domains -/

/-- A variable of the program has a name. -/
def Program.Names (p : Program) (name : String) (v : VarId) : Prop :=
  ∃ declared, p.var? v = some declared ∧ declared.name = name

/-- A name that is mentioned as that of a domain or as that of a variable. -/
inductive Mention
  | domain (name : String)
  | variable (name : String)

/-- A domain of the registry has the name, or exactly one variable of the program. -/
def Means (p : Program) (c : Checked) : Mention → Prop
  | .domain name => ∃ d, c.registry.domain? d = some name
  | .variable name => ∃! v, p.Names name v

/-- What is wrong with a name. -/
inductive Fails (p : Program) (c : Checked) : Mention → ConfigError → Prop
  | unknownDomain {name : String} (h : ∀ d, c.registry.domain? d ≠ some name) :
      Fails p c (.domain name) (.unknownDomain name)
  | unknownVariable {name : String} (h : ∀ v, ¬ p.Names name v) :
      Fails p c (.variable name) (.unknownVariable name)
  | ambiguousVariable {name : String} {v w : VarId} (hne : v ≠ w) (hv : p.Names name v)
      (hw : p.Names name w) : Fails p c (.variable name) (.ambiguousVariable name)

namespace Program

theorem mem_findVar : v ∈ p.findVar name ↔ p.Names name v := by
  unfold findVar
  rw [List.mem_map]
  constructor
  · rintro ⟨⟨v, declared⟩, hmem, rfl⟩
    obtain ⟨hdeclared, hname⟩ := List.mem_filter.mp hmem
    exact ⟨declared, mem_declarations.mp hdeclared, of_decide_eq_true hname⟩
  · rintro ⟨declared, hdeclared, hname⟩
    exact ⟨(v, declared),
      List.mem_filter.mpr ⟨mem_declarations.mpr hdeclared, decide_eq_true hname⟩, rfl⟩

theorem nodup_findVar (p : Program) (name : String) : (p.findVar name).Nodup := by
  have hsub : (p.findVar name).Sublist (p.declarations.map Prod.fst) := List.filter_sublist.map _
  rw [map_fst_declarations] at hsub
  exact Ident.nodup_below.sublist hsub

/-- A variable has one name. -/
theorem Names.unique {name' : String} (h : p.Names name v) (h' : p.Names name' v) :
    name = name' := by
  obtain ⟨declared, hdeclared, rfl⟩ := h
  obtain ⟨declared', hdeclared', rfl⟩ := h'
  rw [Option.some.inj (hdeclared.symm.trans hdeclared')]

/-- Looking up a variable tells apart that no variable, one variable and several have the name. -/
theorem uniqueVar_spec (p : Program) (name : String) :
    (p.uniqueVar name = .error (.unknownVariable name) ∧ ∀ v, ¬ p.Names name v) ∨
      (∃ v, p.uniqueVar name = .ok v ∧ p.Names name v ∧ ∀ w, p.Names name w → w = v) ∨
      p.uniqueVar name = .error (.ambiguousVariable name) ∧
        ∃ v w, v ≠ w ∧ p.Names name v ∧ p.Names name w := by
  have hnodup := p.nodup_findVar name
  simp only [← mem_findVar, uniqueVar]
  match p.findVar name, hnodup with
  | [], _ => exact .inl ⟨rfl, fun v ↦ List.not_mem_nil⟩
  | [v], _ =>
    exact .inr (.inl ⟨v, rfl, List.mem_singleton_self v, fun w ↦ List.mem_singleton.mp⟩)
  | v :: w :: rest, hnodup =>
    refine .inr (.inr ⟨rfl, v, w, fun heq ↦ ?_, List.mem_cons_self,
      List.mem_cons_of_mem _ List.mem_cons_self⟩)
    exact (List.nodup_cons.mp hnodup).1 (heq ▸ List.mem_cons_self)

theorem uniqueVar_eq_ok_iff :
    p.uniqueVar name = .ok v ↔ p.Names name v ∧ ∀ w, p.Names name w → w = v := by
  rcases p.uniqueVar_spec name with ⟨heq, hnone⟩ | ⟨u, heq, hu, honly⟩ | ⟨heq, u, w, hne, hu, hw⟩
  · rw [heq]
    exact iff_of_false (fun h ↦ by cases h) fun h ↦ hnone v h.1
  · rw [heq, Except.ok.injEq]
    exact ⟨fun h ↦ h ▸ ⟨hu, honly⟩, fun h ↦ h.2 u hu⟩
  · rw [heq]
    exact iff_of_false (fun h ↦ by cases h) fun h ↦ hne ((h.2 u hu).trans (h.2 w hw).symm)

/-- Different names are not those of one variable. -/
theorem uniqueVar_inj (name name' : String) (v : VarId) (h : p.uniqueVar name = .ok v)
    (h' : p.uniqueVar name' = .ok v) : name = name' :=
  (uniqueVar_eq_ok_iff.mp h).1.unique (uniqueVar_eq_ok_iff.mp h').1

theorem uniqueVar_eq_error_iff :
    p.uniqueVar name = .error e ↔ Fails p c (.variable name) e := by
  rcases p.uniqueVar_spec name with ⟨heq, hnone⟩ | ⟨u, heq, hu, honly⟩ | ⟨heq, u, w, hne, hu, hw⟩
  · rw [heq, Except.error.injEq]
    refine ⟨fun h ↦ h ▸ .unknownVariable hnone, fun h ↦ ?_⟩
    cases h with
    | unknownVariable _ => rfl
    | ambiguousVariable _ hv _ => exact absurd hv (hnone _)
  · rw [heq]
    refine iff_of_false (fun h ↦ by cases h) fun h ↦ ?_
    cases h with
    | unknownVariable hnone => exact hnone u hu
    | ambiguousVariable hne hv hw => exact hne ((honly _ hv).trans (honly _ hw).symm)
  · rw [heq, Except.error.injEq]
    refine ⟨fun h ↦ h ▸ .ambiguousVariable hne hu hw, fun h ↦ ?_⟩
    cases h with
    | unknownVariable hnone => exact absurd hu (hnone u)
    | ambiguousVariable _ _ _ => rfl

end Program

namespace Checked

theorem namedDomain_eq_ok_iff (hnodup : c.registry.domains.Nodup) :
    c.namedDomain name = .ok d ↔ c.registry.domain? d = some name := by
  rw [namedDomain, ← Registry.domainByName?_eq_some_iff hnodup]
  cases c.registry.domainByName? name with
  | none => exact iff_of_false (fun h ↦ by cases h) fun h ↦ by cases h
  | some found => rw [Option.elim_some, Except.ok.injEq, Option.some.injEq]

/-- Different names are not those of one domain. -/
theorem namedDomain_inj (hnodup : c.registry.domains.Nodup) (name name' : String) (d : DomainId)
    (h : c.namedDomain name = .ok d) (h' : c.namedDomain name' = .ok d) : name = name' :=
  Option.some.inj (((namedDomain_eq_ok_iff hnodup).mp h).symm.trans
    ((namedDomain_eq_ok_iff hnodup).mp h'))

theorem namedDomain_eq_error_iff (hnodup : c.registry.domains.Nodup) :
    c.namedDomain name = .error e ↔ Fails p c (.domain name) e := by
  have hok : ∀ d, c.namedDomain name = .ok d ↔ c.registry.domain? d = some name :=
    fun d ↦ namedDomain_eq_ok_iff hnodup
  unfold namedDomain at hok ⊢
  cases hdomain : c.registry.domainByName? name with
  | none =>
    have hnone : ∀ d, c.registry.domain? d ≠ some name := by
      intro d hd
      rw [← hok, hdomain] at hd
      cases hd
    rw [Option.elim_none, Except.error.injEq]
    refine ⟨fun h ↦ h ▸ .unknownDomain hnone, fun h ↦ ?_⟩
    cases h
    rfl
  | some d =>
    refine iff_of_false (fun h ↦ by cases h) fun h ↦ ?_
    cases h with
    | unknownDomain hnone => exact hnone d ((hok d).mp (hdomain ▸ rfl))

end Checked

/-! ### Names in order -/

/-- Of names in order, the first one that means nothing is at fault. -/
inductive FirstFault (p : Program) (c : Checked) : List Mention → ConfigError → Prop
  | here {m : Mention} {rest : List Mention} {e : ConfigError} (h : Fails p c m e) :
      FirstFault p c (m :: rest) e
  | later {m : Mention} {rest : List Mention} {e : ConfigError} (h : Means p c m)
      (hrest : FirstFault p c rest e) : FirstFault p c (m :: rest) e

theorem firstFault_cons_iff {m : Mention} {rest : List Mention} :
    FirstFault p c (m :: rest) e ↔ Fails p c m e ∨ Means p c m ∧ FirstFault p c rest e := by
  constructor
  · intro h
    cases h with
    | here hfails => exact .inl hfails
    | later hmeans hrest => exact .inr ⟨hmeans, hrest⟩
  · rintro (hfails | ⟨hmeans, hrest⟩)
    · exact .here hfails
    · exact .later hmeans hrest

theorem firstFault_append_iff {first second : List Mention} : FirstFault p c (first ++ second) e ↔
    FirstFault p c first e ∨ (∀ m ∈ first, Means p c m) ∧ FirstFault p c second e := by
  induction first with
  | nil =>
    refine ⟨fun h ↦ .inr ⟨fun m hm ↦ absurd hm List.not_mem_nil, h⟩, ?_⟩
    rintro (h | ⟨-, h⟩)
    · cases h
    · exact h
  | cons m rest ih =>
    rw [List.cons_append, firstFault_cons_iff, firstFault_cons_iff, ih, List.forall_mem_cons,
      and_or_left, or_assoc, and_assoc]

/-- A way to look up names finds those that mean something, and says what is wrong with the
others. -/
structure LooksUp {α : Type} (p : Program) (c : Checked) (kind : String → Mention)
    (look : String → Except ConfigError α) : Prop where
  ok_iff : ∀ name, (∃ a, look name = .ok a) ↔ Means p c (kind name)
  error_iff : ∀ name e, look name = .error e ↔ Fails p c (kind name) e

theorem looksUp_uniqueVar (p : Program) (c : Checked) : LooksUp p c .variable p.uniqueVar where
  ok_iff _ := exists_congr fun _ ↦ Program.uniqueVar_eq_ok_iff
  error_iff _ _ := Program.uniqueVar_eq_error_iff

theorem looksUp_namedDomain (p : Program) (hnodup : c.registry.domains.Nodup) :
    LooksUp p c .domain c.namedDomain where
  ok_iff _ := exists_congr fun _ ↦ Checked.namedDomain_eq_ok_iff hnodup
  error_iff _ _ := Checked.namedDomain_eq_error_iff hnodup

namespace Config

/-- The names in pairs, in each pair the key before the value, which is a variable. -/
def mentionsOf (kind : String → Mention) (pairs : List (String × String)) : List Mention :=
  pairs.flatMap fun (k, v) ↦ [kind k, .variable v]

theorem mentionsOf_cons {kind : String → Mention} {k v : String} {rest : List (String × String)} :
    mentionsOf kind ((k, v) :: rest) = kind k :: .variable v :: mentionsOf kind rest := rfl

/-- The names of a configuration: those of its holes, then those of its substitutes. -/
def mentions (config : Config) : List Mention :=
  mentionsOf .domain config.holes.toList ++ mentionsOf .variable config.renames.toList

/-- The pairs come in ascending order of keys. -/
theorem pairwise_toList (m : Std.ExtTreeMap String String) :
    (m.toList.map Prod.fst).Pairwise (· < ·) := by
  have hordered : m.toList.Pairwise fun a b ↦ compare a.1 b.1 = .lt :=
    Std.ExtTreeMap.ordered_keys_toList
  exact List.pairwise_map.mpr (hordered.imp fun {a b} hlt ↦ compareOfLessAndEq_eq_lt.mp hlt)

section Pairs

variable {α β : Type} {key : String → Except ConfigError α} {value : String → Except ConfigError β}
  {kind : String → Mention} {pairs : List (String × String)} {found : List (α × β)} {a : α} {b : β}

/-- Pairs are resolved one by one. -/
theorem resolvePairs_eq_ok_iff : resolvePairs key value pairs = .ok found ↔
    List.Forall₂ (fun x y ↦ key x.1 = .ok y.1 ∧ value x.2 = .ok y.2) pairs found := by
  induction pairs generalizing found with
  | nil =>
    rw [resolvePairs, Except.ok.injEq, List.forall₂_nil_left_iff, eq_comm]
  | cons x rest ih =>
    obtain ⟨k, v⟩ := x
    rw [resolvePairs, List.forall₂_cons_left_iff]
    simp only [bind_eq_ok_iff, map_eq_ok_iff, ih]
    constructor
    · rintro ⟨a, hk, b, hv, found', hrest, rfl⟩
      exact ⟨(a, b), found', ⟨hk, hv⟩, hrest, rfl⟩
    · rintro ⟨⟨a, b⟩, found', ⟨hk, hv⟩, hrest, rfl⟩
      exact ⟨a, hk, b, hv, found', hrest, rfl⟩

/-- Pairs are resolved up to the first name that means nothing. -/
theorem resolvePairs_eq_error_iff (hkey : LooksUp p c kind key)
    (hvalue : LooksUp p c .variable value) :
    resolvePairs key value pairs = .error e ↔ FirstFault p c (mentionsOf kind pairs) e := by
  induction pairs with
  | nil => exact iff_of_false (fun h ↦ by cases h) fun h ↦ by cases h
  | cons x rest ih =>
    obtain ⟨k, v⟩ := x
    rw [resolvePairs, mentionsOf_cons, firstFault_cons_iff, firstFault_cons_iff, ← hkey.ok_iff,
      ← hvalue.ok_iff, ← hkey.error_iff, ← hvalue.error_iff, ← ih]
    simp only [bind_eq_error_iff, map_eq_error_iff, exists_and_right]

/-- Pairs are resolved if all their names mean something. -/
theorem exists_resolvePairs_iff (hkey : LooksUp p c kind key)
    (hvalue : LooksUp p c .variable value) :
    (∃ found : List (α × β), resolvePairs key value pairs = .ok found) ↔
      ∀ m ∈ mentionsOf kind pairs, Means p c m := by
  simp only [resolvePairs_eq_ok_iff]
  induction pairs with
  | nil => exact iff_of_true ⟨[], .nil⟩ fun m hm ↦ absurd hm List.not_mem_nil
  | cons x rest ih =>
    obtain ⟨k, v⟩ := x
    rw [mentionsOf_cons, List.forall_mem_cons, List.forall_mem_cons, ← hkey.ok_iff, ← hvalue.ok_iff,
      ← ih]
    constructor
    · rintro ⟨found, hfound⟩
      cases hfound with
      | cons hx hrest => exact ⟨⟨_, hx.1⟩, ⟨_, hx.2⟩, _, hrest⟩
    · rintro ⟨⟨a, ha⟩, ⟨b, hb⟩, found, hfound⟩
      exact ⟨(a, b) :: found, .cons ⟨ha, hb⟩ hfound⟩

section Found

variable (h : resolvePairs key value pairs = .ok found)

include h

theorem mem_found_iff : (a, b) ∈ found ↔
    ∃ k v, (k, v) ∈ pairs ∧ key k = .ok a ∧ value v = .ok b := by
  have hall := resolvePairs_eq_ok_iff.mp h
  constructor
  · intro hmem
    obtain ⟨⟨k, v⟩, hx, hk, hv⟩ := exists_of_forall₂ hall.flip hmem
    exact ⟨k, v, hx, hk, hv⟩
  · rintro ⟨k, v, hx, hk, hv⟩
    obtain ⟨⟨a', b'⟩, hmem, hk', hv'⟩ := exists_of_forall₂ hall hx
    cases hk.symm.trans hk'
    cases hv.symm.trans hv'
    exact hmem

variable (hkeys : (pairs.map Prod.fst).Nodup)
  (hinj : ∀ k k' a, key k = .ok a → key k' = .ok a → k = k')

include hkeys hinj

/-- Different names are found to be different things, so no pair takes the place of another. -/
theorem nodup_map_fst_found : (found.map Prod.fst).Nodup := by
  have hall := resolvePairs_eq_ok_iff.mp h
  clear h
  induction hall with
  | nil => exact List.nodup_nil
  | @cons x y pairs found hxy hrest ih =>
    rw [List.map_cons, List.nodup_cons] at hkeys ⊢
    refine ⟨fun hin ↦ hkeys.1 ?_, ih hkeys.2⟩
    -- What is found a second time is found under the same name, and the pairs have it once.
    obtain ⟨y', hmem, hy⟩ := List.mem_map.mp hin
    obtain ⟨x', hmem', hx', -⟩ := exists_of_forall₂ hrest.flip hmem
    rw [hinj x.1 x'.1 y.1 hxy.1 (hy ▸ hx')]
    exact List.mem_map_of_mem hmem'

variable [Ord α] [Std.TransOrd α] [Std.LawfulEqOrd α] [DecidableEq α]

theorem getElem?_ofList_found : (Std.ExtTreeMap.ofList found)[a]? = some b ↔
    ∃ k v, (k, v) ∈ pairs ∧ key k = .ok a ∧ value v = .ok b := by
  rw [getElem?_map_ofList_iff (nodup_map_fst_found h hkeys hinj), mem_found_iff h]

omit [DecidableEq α] in
theorem size_ofList_found : (Std.ExtTreeMap.ofList found).size = pairs.length := by
  rw [size_map_ofList (nodup_map_fst_found h hkeys hinj), (resolvePairs_eq_ok_iff.mp h).length_eq]

end Found

end Pairs

theorem forall_mem_mentionsOf_iff {kind : String → Mention} {m : Std.ExtTreeMap String String} :
    (∀ x ∈ mentionsOf kind m.toList, Means p c x) ↔
      ∀ k v, m[k]? = some v → Means p c (kind k) ∧ Means p c (.variable v) := by
  unfold mentionsOf
  simp only [List.mem_flatMap, forall_exists_index, and_imp, Prod.forall,
    Std.ExtTreeMap.mem_toList_iff_getElem?_eq_some]
  constructor
  · exact fun h k v hk ↦ ⟨h _ k v hk List.mem_cons_self,
      h _ k v hk (List.mem_cons_of_mem _ List.mem_cons_self)⟩
  · intro h x k v hk hx
    rcases List.mem_pair.mp hx with rfl | rfl
    · exact (h k v hk).1
    · exact (h k v hk).2

/-! ### Settings -/

variable {settings : Settings}

theorem resolve_eq_ok_iff : config.resolve p c = .ok settings ↔ ∃ holes renames,
    resolvePairs c.namedDomain p.uniqueVar config.holes.toList = .ok holes ∧
      resolvePairs p.uniqueVar p.uniqueVar config.renames.toList = .ok renames ∧
      ⟨config.layer, .ofList holes, .ofList renames⟩ = settings := by
  unfold resolve
  simp only [bind_eq_ok_iff, map_eq_ok_iff, exists_and_left]

section Resolve

variable (hnodup : c.registry.domains.Nodup)

include hnodup

/-- The first name at fault is reported. -/
theorem resolve_eq_error_iff :
    config.resolve p c = .error e ↔ FirstFault p c config.mentions e := by
  have hdomain := looksUp_namedDomain p hnodup
  have hvariable := looksUp_uniqueVar p c
  -- A substitute can be at fault only if all holes are resolved.
  rw [mentions, firstFault_append_iff, ← resolvePairs_eq_error_iff hdomain hvariable,
    ← resolvePairs_eq_error_iff hvariable hvariable, ← exists_resolvePairs_iff hdomain hvariable,
    resolve, bind_eq_error_iff]
  simp only [map_eq_error_iff, exists_and_right]

/-- A configuration is resolved if all its names mean something. -/
theorem exists_resolve_iff : (∃ settings, config.resolve p c = .ok settings) ↔
    (∀ k v, config.holes[k]? = some v → Means p c (.domain k) ∧ Means p c (.variable v)) ∧
      ∀ k v, config.renames[k]? = some v →
        Means p c (.variable k) ∧ Means p c (.variable v) := by
  have hvariable := looksUp_uniqueVar p c
  rw [← forall_mem_mentionsOf_iff, ← forall_mem_mentionsOf_iff,
    ← exists_resolvePairs_iff (looksUp_namedDomain p hnodup) hvariable,
    ← exists_resolvePairs_iff hvariable hvariable]
  simp only [resolve_eq_ok_iff]
  constructor
  · rintro ⟨_, holes, renames, hholes, hrenames, -⟩
    exact ⟨⟨holes, hholes⟩, renames, hrenames⟩
  · rintro ⟨⟨holes, hholes⟩, renames, hrenames⟩
    exact ⟨_, holes, renames, hholes, hrenames, rfl⟩

/-- The settings have one entry for each pair of names, from what the key means to what the value
means. -/
theorem entries_of_resolve (h : config.resolve p c = .ok settings) :
    settings.layer = config.layer ∧ settings.holes.size = config.holes.size ∧
      settings.renames.size = config.renames.size ∧
      (∀ d w, settings.holes[d]? = some w ↔ ∃ k v, config.holes[k]? = some v ∧
        c.registry.domain? d = some k ∧ p.Names v w) ∧
      ∀ u w, settings.renames[u]? = some w ↔ ∃ k v, config.renames[k]? = some v ∧
        p.Names k u ∧ p.Names v w := by
  obtain ⟨holes, renames, hholes, hrenames, rfl⟩ := resolve_eq_ok_iff.mp h
  have hkeys : ∀ m : Std.ExtTreeMap String String, (m.toList.map Prod.fst).Nodup := by
    intro m
    rw [Std.ExtTreeMap.map_fst_toList_eq_keys]
    exact nodup_keys_map m
  -- All names of a configuration that is resolved mean something, so a variable that has one of
  -- them is the one that was found.
  obtain ⟨hmeans, hmeans'⟩ := (exists_resolve_iff hnodup).mp ⟨_, h⟩
  have hfound : ∀ {name v}, Means p c (.variable name) →
      (p.uniqueVar name = .ok v ↔ p.Names name v) := by
    intro name v hname
    rw [Program.uniqueVar_eq_ok_iff]
    exact and_iff_left_of_imp fun hv w hw ↦ hname.unique hw hv
  refine ⟨rfl, ?_, ?_, fun d w ↦ ?_, fun u w ↦ ?_⟩
  · rw [size_ofList_found hholes (hkeys _) (Checked.namedDomain_inj hnodup),
      Std.ExtTreeMap.length_toList]
  · rw [size_ofList_found hrenames (hkeys _) Program.uniqueVar_inj, Std.ExtTreeMap.length_toList]
  · rw [getElem?_ofList_found hholes (hkeys _) (Checked.namedDomain_inj hnodup)]
    simp only [Std.ExtTreeMap.mem_toList_iff_getElem?_eq_some,
      Checked.namedDomain_eq_ok_iff hnodup]
    exact exists₂_congr fun k v ↦ and_congr_right fun hk ↦
      and_congr_right fun _ ↦ hfound (hmeans k v hk).2
  · rw [getElem?_ofList_found hrenames (hkeys _) Program.uniqueVar_inj]
    simp only [Std.ExtTreeMap.mem_toList_iff_getElem?_eq_some]
    exact exists₂_congr fun k v ↦ and_congr_right fun hk ↦
      and_congr (hfound (hmeans' k v hk).1) (hfound (hmeans' k v hk).2)

end Resolve

/-- With what was checked of one program, under any encoding, a configuration is resolved against
the same or another program exactly if every key of its holes is the name of a domain, and all its
other names are those of exactly one variable. The settings then have the layer of the configuration
and one entry for each of its pairs. Otherwise the first name at fault is reported, where names are
looked at in ascending order of keys, holes before substitutes and in each pair the key before the
value. -/
theorem resolve_eq_named (q p : Program) (c : Checked) (encoding : Encoding) (config : Config)
    (hcheck : q.check = .ok c) :
    ((∃ settings, config.resolve p (c.withEncoding encoding) = .ok settings) ↔
      (∀ k v, config.holes[k]? = some v →
        (∃ d, c.registry.domain? d = some k) ∧ ∃! w, p.Names v w) ∧
      ∀ k v, config.renames[k]? = some v → (∃! u, p.Names k u) ∧ ∃! w, p.Names v w) ∧
    (∀ settings, config.resolve p (c.withEncoding encoding) = .ok settings →
      settings.layer = config.layer ∧ settings.holes.size = config.holes.size ∧
        settings.renames.size = config.renames.size ∧
        (∀ d w, settings.holes[d]? = some w ↔ ∃ k v, config.holes[k]? = some v ∧
          c.registry.domain? d = some k ∧ p.Names v w) ∧
        ∀ u w, settings.renames[u]? = some w ↔ ∃ k v, config.renames[k]? = some v ∧
          p.Names k u ∧ p.Names v w) ∧
    (∀ e, config.resolve p (c.withEncoding encoding) = .error e ↔
      FirstFault p c config.mentions e) ∧
    (config.holes.toList.map Prod.fst).Pairwise (· < ·) ∧
    (config.renames.toList.map Prod.fst).Pairwise (· < ·) := by
  have hnodup : c.registry.domains.Nodup := by
    rw [(Program.eq_of_check hcheck).2]
    exact q.nodup_domains
  have hsame : config.resolve p (c.withEncoding encoding) = config.resolve p c := rfl
  rw [hsame]
  exact ⟨exists_resolve_iff hnodup, fun settings h ↦ entries_of_resolve hnodup h,
    fun e ↦ resolve_eq_error_iff hnodup, pairwise_toList _, pairwise_toList _⟩

/-- A configuration with a hole for one domain and a substitute for one variable. -/
def lending : Config where
  layer := 1
  holes := (∅ : Std.ExtTreeMap String String).insert "Lock" "count"
  renames := (∅ : Std.ExtTreeMap String String).insert "token" "pool"

/-- The program of `Instrumenter.holders` with a second variable of a name that it has. -/
def crowded : Program :=
  (Instrumenter.holders.addVar ⟨"token", false, .ordinary, none, none, .zero⟩).2

theorem resolve_eq_named_lending :
    Instrumenter.holders.check = .ok (Instrumenter.keeper.checked.withEncoding .collector) ∧
    (∃ settings,
      lending.resolve Instrumenter.holders (Instrumenter.keeper.checked.withEncoding .separation) =
        .ok settings ∧
      settings.holes[(⟨0⟩ : DomainId)]? = some ⟨3⟩ ∧
      settings.renames[(⟨0⟩ : VarId)]? = some ⟨2⟩) ∧
    lending.resolve crowded (Instrumenter.keeper.checked.withEncoding .separation) =
      .error (.ambiguousVariable "token") := by
  have hpair : ∀ {k' v' : String} k v,
      ((∅ : Std.ExtTreeMap String String).insert k' v')[k]? = some v → k = k' ∧ v = v' := by
    intro k' v' k v hk
    rcases eq_or_of_getElem?_map_insert hk with heq | ⟨-, hnone⟩
    · exact heq
    · rw [Std.ExtTreeMap.getElem?_empty] at hnone
      cases hnone
  have hlock : Instrumenter.keeper.checked.registry.domain? ⟨0⟩ = some "Lock" := by decide +kernel
  have hnamed : ∀ {q : Program} {name v}, q.uniqueVar name = .ok v → ∃! w, q.Names name w :=
    fun h ↦ ⟨_, Program.uniqueVar_eq_ok_iff.mp h⟩
  have htoken : Instrumenter.holders.uniqueVar "token" = .ok ⟨0⟩ := rfl
  have hpool : Instrumenter.holders.uniqueVar "pool" = .ok ⟨2⟩ := rfl
  have hcount : Instrumenter.holders.uniqueVar "count" = .ok ⟨3⟩ := rfl
  obtain ⟨hok, hentries, -⟩ := resolve_eq_named Instrumenter.holders Instrumenter.holders
    Instrumenter.keeper.checked .separation lending rfl
  obtain ⟨-, -, herror, -⟩ := resolve_eq_named Instrumenter.holders crowded
    Instrumenter.keeper.checked .separation lending rfl
  have hresolved : ∃ settings, lending.resolve Instrumenter.holders
      (Instrumenter.keeper.checked.withEncoding .separation) = .ok settings := by
    refine hok.mpr ⟨fun k v hk ↦ ?_, fun k v hk ↦ ?_⟩
    · obtain ⟨rfl, rfl⟩ := hpair k v hk
      exact ⟨⟨⟨0⟩, hlock⟩, hnamed hcount⟩
    · obtain ⟨rfl, rfl⟩ := hpair k v hk
      exact ⟨hnamed htoken, hnamed hpool⟩
  obtain ⟨settings, hsettings⟩ := hresolved
  obtain ⟨-, -, -, hholes, hrenames⟩ := hentries settings hsettings
  refine ⟨rfl, ⟨settings, hsettings,
    (hholes _ _).mpr ⟨"Lock", "count", by decide +kernel, hlock, _, rfl, rfl⟩,
    (hrenames _ _).mpr ⟨"token", "pool", by decide +kernel, ⟨_, rfl, rfl⟩, _, rfl, rfl⟩⟩,
    (herror _).mpr ?_⟩
  -- The two variables of one name are met after the hole has been resolved.
  have hmentions : lending.mentions =
      [.domain "Lock", .variable "count", .variable "token", .variable "pool"] := by
    have hholes : lending.holes.toList = [("Lock", "count")] := by decide +kernel
    have hrenames : lending.renames.toList = [("token", "pool")] := by decide +kernel
    rw [mentions, hholes, hrenames]
    rfl
  rw [hmentions]
  have hcount' : crowded.uniqueVar "count" = .ok ⟨3⟩ := rfl
  have hne : (⟨0⟩ : VarId) ≠ ⟨4⟩ := by decide
  exact .later ⟨⟨0⟩, hlock⟩ (.later (hnamed hcount')
    (.here (.ambiguousVariable hne ⟨_, rfl, rfl⟩ ⟨_, rfl, rfl⟩)))

end Config

end OwnershipFlow
