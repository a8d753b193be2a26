import OwnershipFlow.Instrumenter.Disjointness
import OwnershipFlow.Proofs.Domains
import OwnershipFlow.Proofs.Tables
import OwnershipFlow.Proofs.Tracked

/-!
# Scope and its division among domains

Which variables are in scope at a point is said without lists (`Instrumenter.InScope`): the
parameters owned at entry of the declaration that the point stands for, or the local variables
available at the node that it stands for, and the global variables of plain linear kind, as far as
they exist at the layer. The instrumenter lists exactly these (`mem_scope`), and it leaves out the
globals where they are not asked for (`Instrumenter.Within`, `mem_scope_iff`).

In an accepted program every variable in scope is of linear kind (`isLinear_of_mem_scope`),
whichever way it got there, so it names a domain of the registry and none is left out when the
scope is divided. The variables that occur in the union written for a domain are then the
substitutes of the variables in scope that name the domain (`permissionUnions_partition_scope`).
-/

set_option autoImplicit false
set_option relaxedAutoImplicit false

namespace OwnershipFlow

variable {p : Program} {c : Checked} {t : Instrumenter} {v w : VarId} {d : DomainId}
  {declared : Variable} {name : String} {point : Point} {n : Node} {ins : List VarId}

theorem LinearKind.isLinear_of_ownedAtEntry {k : LinearKind} (h : k.ownedAtEntry = true) :
    k.isLinear = true := by
  cases k <;> first | rfl | cases h

theorem LinearKind.isLinear_of_ownedAtExit {k : LinearKind} (h : k.ownedAtExit = true) :
    k.isLinear = true := by
  cases k <;> first | rfl | cases h

/-! ### Variables of unions -/

namespace Encoding

theorem mem_freeVars_unionWith {func : String} {none : Expr} {es : List Expr}
    (hnone : none.freeVars = ∅) :
    v ∈ (unionWith func none es).freeVars ↔ ∃ e ∈ es, v ∈ e.freeVars := by
  cases es with
  | nil => simp [unionWith, hnone]
  | cons e rest =>
    rw [unionWith]
    induction rest generalizing e with
    | nil => simp
    | cons e' rest ih =>
      rw [List.foldl_cons, ih]
      simp [Expr.freeVars, Expr.freeVarsOfList, or_assoc]

/-- The variables of a union are those of its members. -/
theorem mem_freeVars_collector_union {es : List Expr} :
    v ∈ (collector.union name es).freeVars ↔ ∃ e ∈ es, v ∈ e.freeVars :=
  mem_freeVars_unionWith rfl

theorem mem_freeVars_collector_permission :
    w ∈ (collector.permission name v).freeVars ↔ v = w := by
  simp [collector, Expr.freeVars, Expr.freeVarsOfList]

end Encoding

/-! ### Accepted programs -/

namespace Variable

/-- A variable in order names a domain exactly if it owns permissions of one. -/
theorem linearDomain?_eq_domain? (h : declared.fault? = none) :
    declared.linearDomain? = declared.domain? := by
  unfold fault? domainFault? at h
  unfold linearDomain?
  cases hkind : declared.kind.isLinear <;> cases hdomain : declared.domain? <;> simp_all

theorem exists_domain? (h : declared.fault? = none) (hkind : declared.kind.isLinear = true) :
    ∃ name, declared.domain? = some name := by
  unfold fault? domainFault? at h
  cases hdomain : declared.domain? <;> simp_all

end Variable

namespace Program

/-- In an accepted program the domain of a variable is the one that it names. -/
theorem domainOf?_eq_some_iff_of_check (h : p.check = .ok c) :
    c.registry.domainOf? v = some d ↔ ∃ name,
      (c.var? v).bind Variable.domain? = some name ∧ c.registry.domain? d = some name := by
  obtain ⟨hfault, rfl⟩ := eq_of_check h
  rw [domainOf?_eq_some_iff]
  simp only [Option.bind_eq_some_iff]
  constructor
  · rintro ⟨declared, name, hdeclared, hname, hd⟩
    have hin := hfault declared (List.mem_of_getElem? hdeclared)
    exact ⟨name, ⟨declared, hdeclared, declared.linearDomain?_eq_domain? hin ▸ hname⟩, hd⟩
  · rintro ⟨name, ⟨declared, hdeclared, hname⟩, hd⟩
    have hin := hfault declared (List.mem_of_getElem? hdeclared)
    exact ⟨declared, name, hdeclared, (Variable.linearDomain?_eq_domain? hin).trans hname, hd⟩

/-- In an accepted program a variable of linear kind has a domain. -/
theorem exists_domainOf?_of_check (h : p.check = .ok c) (hkind : (c.kind v).isLinear = true) :
    ∃ d, c.registry.domainOf? v = some d := by
  obtain ⟨hfault, rfl⟩ := eq_of_check h
  obtain ⟨declared, hdeclared⟩ := Option.isSome_iff_exists.mp (p.var?_isSome_of_isLinear hkind)
  have hin := hfault declared (List.mem_of_getElem? hdeclared)
  have hlinear : declared.kind.isLinear = true := by
    rwa [Checked.kind, Checked.var?, ← var?, hdeclared] at hkind
  obtain ⟨name, hname⟩ := Variable.exists_domain? hin hlinear
  obtain ⟨d, hd, -⟩ := exists_domainOf? hdeclared
    ((Variable.linearDomain?_eq_domain? hin).trans hname)
  exact ⟨d, hd⟩

end Program

/-! ### What is in scope -/

namespace Instrumenter

/-- An in-parameter of the declaration that a node stands for, if there is one on record, and
otherwise one of the given in-parameters. -/
def EntryParameter (t : Instrumenter) (n : Node) (ins : List VarId) (v : VarId) : Prop :=
  (∃ source signature, t.origins.get? n = some source ∧
      t.checked.signature? source = some signature ∧ v ∈ signature.ins) ∨
    (∀ source, t.origins.get? n = some source → t.checked.signature? source = none) ∧ v ∈ ins

/-- A parameter owned at the entry of a declaration. -/
def OwnedParameter (t : Instrumenter) (n : Node) (ins : List VarId) (v : VarId) : Prop :=
  t.EntryParameter n ins v ∧ (t.checked.kind v = .linear ∨ t.checked.kind v = .linearIn)

/-- A local variable that is available at what a node stands for. -/
def AvailableLocal (t : Instrumenter) (n : Node) (v : VarId) : Prop :=
  v ∈ t.checked.registry.availableAt (t.origins.resolve n) ∧ t.checked.isGlobal v = false

/-- What a point holds without globals, at any layer. -/
def HeldAt (t : Instrumenter) : Point → VarId → Prop
  | .procedure declared => t.OwnedParameter (.procedure declared.id) declared.ins
  | .implementation declared => t.OwnedParameter (.implementation declared.id) declared.ins
  | .block id => t.AvailableLocal (.block id)
  | .command id => t.AvailableLocal (.command id)

/-- A global variable of plain linear kind. -/
def HeldGlobally (t : Instrumenter) (v : VarId) : Prop :=
  v ∈ t.checked.globals ∧ t.checked.kind v = .linear

/-- A variable that is held at a point, or globally, and exists at the layer of the pass. -/
def InScope (t : Instrumenter) (point : Point) (v : VarId) : Prop :=
  (t.HeldAt point v ∨ t.HeldGlobally v) ∧ (t.checked.layers v).contains t.settings.layer = true

/-- A variable that is held at a point, or globally if globals are asked for, and exists at the
layer of the pass. -/
def Within (t : Instrumenter) (point : Point) (globals : Bool) (v : VarId) : Prop :=
  (t.HeldAt point v ∨ globals = true ∧ t.HeldGlobally v) ∧
    (t.checked.layers v).contains t.settings.layer = true

theorem entryParameter_iff : t.EntryParameter n ins v ↔
    v ∈ ((t.origins.get? n).bind t.checked.signature?).elim ins Signature.ins := by
  unfold EntryParameter
  cases t.origins.get? n with
  | none => simp
  | some source => cases hsignature : t.checked.signature? source <;> simp [hsignature]

/-- The given in-parameters count if no others are on record. -/
theorem entryParameter_iff_mem (hsame : ∀ source signature, t.origins.get? n = some source →
    t.checked.signature? source = some signature → ∀ v, v ∈ signature.ins ↔ v ∈ ins) :
    t.EntryParameter n ins v ↔ v ∈ ins := by
  rw [entryParameter_iff]
  cases hrecord : (t.origins.get? n).bind t.checked.signature? with
  | none => exact Iff.rfl
  | some signature =>
    obtain ⟨source, hget, hsignature⟩ := Option.bind_eq_some_iff.mp hrecord
    exact hsame source signature hget hsignature v

theorem mem_entryScope :
    v ∈ t.entryScope n ins ↔ t.OwnedParameter n ins v ∧ t.atLayer v = true := by
  unfold entryScope ownedAtEntry OwnedParameter
  rw [List.mem_filter, ← entryParameter_iff, Bool.and_eq_true, LinearKind.ownedAtEntry_iff,
    and_assoc]

theorem mem_flowScope : v ∈ t.flowScope n ↔ t.AvailableLocal n v ∧ t.atLayer v = true := by
  unfold flowScope AvailableLocal
  rw [List.mem_filter, Std.ExtTreeSet.mem_toList, Bool.and_eq_true, Bool.not_eq_true', and_assoc]

theorem mem_localScope : v ∈ t.localScope point ↔ t.HeldAt point v ∧ t.atLayer v = true := by
  cases point with
  | procedure _ | implementation _ => exact mem_entryScope
  | block _ | command _ => exact mem_flowScope

theorem mem_globalScope : v ∈ t.globalScope ↔ t.HeldGlobally v ∧ t.atLayer v = true := by
  unfold globalScope HeldGlobally
  rw [List.mem_filter, Bool.and_eq_true, decide_eq_true_eq, and_assoc]

/-- The scope lists the variables within it. -/
theorem mem_scope_iff {globals : Bool} :
    v ∈ t.scope point globals ↔ t.Within point globals v := by
  unfold scope Within
  rw [List.mem_append, mem_localScope]
  cases globals with
  | false => simp [atLayer]
  | true =>
    rw [if_pos rfl, mem_globalScope, ← or_and_right, eq_self, true_and]
    rfl

/-- The scope with globals lists what is in scope. -/
theorem mem_scope : v ∈ t.scope point true ↔ t.InScope point v := by
  rw [mem_scope_iff, Within, InScope, eq_self, true_and]

theorem isLinear_of_ownedParameter (h : t.OwnedParameter n ins v) :
    (t.checked.kind v).isLinear = true := by
  obtain ⟨-, hkind | hkind⟩ := h <;> rw [hkind] <;> rfl

/-- What is available is of linear kind, since only tracked variables become available. -/
theorem isLinear_of_availableLocal (hcheck : p.check = .ok t.checked) (h : t.AvailableLocal n v) :
    (t.checked.kind v).isLinear = true := by
  have hmem := h.1
  rw [(Program.eq_of_check hcheck).2] at hmem
  have htracked : (p.var? v).any Variable.isTracked = true :=
    Program.isTracked_of_mem_availableAt hmem
  obtain ⟨declared, hdeclared, htracked⟩ := (Option.any_eq_true _ _).mp htracked
  have hkind : t.checked.kind v = declared.kind := by
    rw [(Program.eq_of_check hcheck).2]
    exact congrArg (Option.elim · LinearKind.ordinary Variable.kind) hdeclared
  rw [hkind]
  exact (Bool.and_eq_true_iff.mp htracked).2

theorem isLinear_of_heldAt (hcheck : p.check = .ok t.checked) (h : t.HeldAt point v) :
    (t.checked.kind v).isLinear = true := by
  cases point with
  | procedure _ | implementation _ => exact isLinear_of_ownedParameter h
  | block _ | command _ => exact isLinear_of_availableLocal hcheck h

/-- In an accepted program everything listed at a point is of linear kind: parameters and globals by
how they are chosen, and what is available by how it becomes so. -/
theorem isLinear_of_mem_scope {globals : Bool} (hcheck : p.check = .ok t.checked)
    (h : v ∈ t.scope point globals) : (t.checked.kind v).isLinear = true := by
  rcases List.mem_append.mp h with hlocal | hglobal
  · exact isLinear_of_heldAt hcheck (mem_localScope.mp hlocal).1
  · cases globals with
    | false => exact absurd hglobal List.not_mem_nil
    | true => rw [(mem_globalScope.mp hglobal).1.2]; rfl

/-- The parameters at either end of a procedure are of linear kind by how they are chosen. -/
theorem isLinear_of_mem_boundaryScope {procedure : Procedure} {entry : Bool}
    (h : v ∈ t.boundaryScope procedure entry) : (t.checked.kind v).isLinear = true := by
  cases entry with
  | true =>
    have howned := (Bool.and_eq_true_iff.mp (List.mem_filter.mp h).2).1
    exact LinearKind.isLinear_of_ownedAtEntry howned
  | false =>
    have howned := (Bool.and_eq_true_iff.mp (List.mem_filter.mp h).2).1
    exact LinearKind.isLinear_of_ownedAtExit howned

/-! ### The division among domains -/

theorem mem_inDomain {scope : List VarId} : w ∈ t.inDomain scope d ↔
    ∃ v ∈ scope, t.checked.registry.domainOf? v = some d ∧ t.settings.rename v = w := by
  unfold inDomain
  rw [mem_set_ofList, List.mem_map]
  simp only [List.mem_filter, decide_eq_true_eq, and_assoc]

section Congruence

variable {scope scope' : List VarId} (h : ∀ v, v ∈ scope ↔ v ∈ scope')

include h

theorem inDomain_congr : t.inDomain scope d = t.inDomain scope' d := by
  refine Std.ExtTreeSet.ext_mem fun w ↦ ?_
  rw [mem_inDomain, mem_inDomain]
  simp only [h]

theorem permissions_congr : t.permissions scope d name = t.permissions scope' d name := by
  rw [permissions, inDomain_congr h, permissions]

/-- Only which variables are in scope matters for what is written, not how they are listed. -/
theorem disjointness_congr : t.disjointness scope = t.disjointness scope' := by
  unfold disjointness predicates terms
  simp only [permissions_congr h]

end Congruence

/-- In an accepted program the variables of a domain are those that name it. -/
theorem mem_inDomain_of_check {scope : List VarId} (hcheck : p.check = .ok t.checked)
    (hd : t.checked.registry.domain? d = some name) : w ∈ t.inDomain scope d ↔
      ∃ v ∈ scope, (t.checked.var? v).bind Variable.domain? = some name ∧
        t.settings.rename v = w := by
  rw [mem_inDomain]
  refine exists_congr fun v ↦ ?_
  rw [Program.domainOf?_eq_some_iff_of_check hcheck]
  constructor
  · rintro ⟨hscope, ⟨name', hname, hd'⟩, hrename⟩
    cases hd.symm.trans hd'
    exact ⟨hscope, hname, hrename⟩
  · rintro ⟨hscope, hname, hrename⟩
    exact ⟨hscope, ⟨name, hname, hd⟩, hrename⟩

theorem map_fst_permissionUnions : (t.permissionUnions point).map Prod.fst =
    Ident.below t.checked.registry.domains.length := by
  unfold permissionUnions
  rw [List.map_map]
  exact Registry.map_fst_entries

theorem mem_permissionUnions {e : Expr} : (d, e) ∈ t.permissionUnions point ↔
    ∃ name, t.checked.registry.domain? d = some name ∧ e = t.checked.registry.encoding.union name
      (t.permissions (t.scope point true) d name) := by
  unfold permissionUnions
  rw [List.mem_map]
  constructor
  · rintro ⟨⟨d, name⟩, hentry, heq⟩
    cases heq
    exact ⟨name, Registry.mem_entries.mp hentry, rfl⟩
  · rintro ⟨name, hname, rfl⟩
    exact ⟨(d, name), Registry.mem_entries.mpr hname, rfl⟩

/-- The variables of a union of permissions are the substitutes of the variables of the domain. -/
theorem mem_freeVars_union_permissions {scope : List VarId}
    (hencoding : t.checked.registry.encoding = .collector) :
    w ∈ (t.checked.registry.encoding.union name (t.permissions scope d name)).freeVars ↔
      w ∈ t.inDomain scope d := by
  unfold permissions
  rw [hencoding, Encoding.mem_freeVars_collector_union]
  simp [Encoding.mem_freeVars_collector_permission]

theorem encoding_of_check (hcheck : p.check = .ok t.checked) :
    t.checked.registry.encoding = .collector := by
  rw [(Program.eq_of_check hcheck).2]
  rfl

theorem mem_permissionUnions_of_domain? {e : Expr} (hd : t.checked.registry.domain? d = some name) :
    (d, e) ∈ t.permissionUnions point ↔ e = t.checked.registry.encoding.union name
      (t.permissions (t.scope point true) d name) := by
  rw [mem_permissionUnions]
  constructor
  · rintro ⟨name', hd', rfl⟩
    cases hd.symm.trans hd'
    rfl
  · rintro rfl
    exact ⟨name, hd, rfl⟩

/-- In an accepted program the union of a domain mentions the substitutes of the variables in scope
that name the domain. -/
theorem mem_freeVars_permissionUnion (hcheck : p.check = .ok t.checked)
    (hd : t.checked.registry.domain? d = some name) :
    w ∈ (t.checked.registry.encoding.union name
        (t.permissions (t.scope point true) d name)).freeVars ↔
      ∃ v, t.InScope point v ∧ (t.checked.var? v).bind Variable.domain? = some name ∧
        t.settings.rename v = w := by
  rw [mem_freeVars_union_permissions (encoding_of_check hcheck), mem_inDomain_of_check hcheck hd]
  simp only [mem_scope]

/-- In an accepted program a variable of linear kind belongs to the domain that it names, which has
one number only. -/
theorem exists_unique_domain (hcheck : p.check = .ok t.checked)
    (hlinear : (t.checked.kind v).isLinear = true) :
    ∃ d name, t.checked.registry.domainOf? v = some d ∧
      (t.checked.var? v).bind Variable.domain? = some name ∧
      ∀ d', t.checked.registry.domain? d' = some name ↔ d' = d := by
  obtain ⟨d, hd⟩ := Program.exists_domainOf?_of_check hcheck hlinear
  obtain ⟨name, hname, hdomain⟩ := (Program.domainOf?_eq_some_iff_of_check hcheck).mp hd
  refine ⟨d, name, hd, hname, fun d' ↦ ⟨fun hd' ↦ ?_, ?_⟩⟩
  · rw [(Program.eq_of_check hcheck).2] at hd' hdomain
    exact Program.domain?_inj hd' hdomain
  · rintro rfl
    exact hdomain

/-- In an accepted program the variables in scope are divided among all domains by the domain that
they name: the union of a domain mentions the substitutes of exactly these variables, and every
variable that is ever divided belongs to one domain and to no other. -/
theorem permissionUnions_partition_scope (p : Program) (t : Instrumenter)
    (hcheck : p.check = .ok t.checked) (point : Point) :
    (t.permissionUnions point).map Prod.fst =
        Ident.below t.checked.registry.domains.length ∧
      (∀ d name, t.checked.registry.domain? d = some name →
        ∃ e, (∀ e', (d, e') ∈ t.permissionUnions point ↔ e' = e) ∧
          ∀ w, w ∈ e.freeVars ↔ ∃ v, t.InScope point v ∧
            (t.checked.var? v).bind Variable.domain? = some name ∧ t.settings.rename v = w) ∧
      (∀ v, t.InScope point v ↔ v ∈ t.scope point true) ∧
      ∀ v, ((∃ globals, v ∈ t.scope point globals) ∨
          ∃ procedure entry, v ∈ t.boundaryScope procedure entry) →
        ∃ d name, t.checked.registry.domainOf? v = some d ∧
          (t.checked.var? v).bind Variable.domain? = some name ∧
          ∀ d', t.checked.registry.domain? d' = some name ↔ d' = d := by
  refine ⟨map_fst_permissionUnions, fun d name hd ↦ ?_, fun v ↦ mem_scope.symm, fun v hv ↦ ?_⟩
  · exact ⟨_, fun e ↦ mem_permissionUnions_of_domain? hd,
      fun w ↦ mem_freeVars_permissionUnion hcheck hd⟩
  · rcases hv with ⟨globals, hscope⟩ | ⟨procedure, entry, hboundary⟩
    · exact exists_unique_domain hcheck (isLinear_of_mem_scope hcheck hscope)
    · exact exists_unique_domain hcheck (isLinear_of_mem_boundaryScope hboundary)

/-- Variables of two domains, one of them global, and a variable of ordinary kind. -/
def holders : Program :=
  let p := (Program.empty.addVar ⟨"token", false, .linear, some "Token", none, .zero⟩).2
  let p := (p.addVar ⟨"lock", false, .linearIn, some "Lock", none, .zero⟩).2
  let p := (p.addVar ⟨"pool", true, .linear, some "Token", none, .zero⟩).2
  (p.addVar ⟨"count", false, .ordinary, none, none, .zero⟩).2

/-- A pass over that program in which the first variable has a substitute. -/
def keeper : Instrumenter where
  checked :=
    { vars := holders.vars
      globals := holders.globals
      signatures := holders.signatures
      defaultLayers := ⟨0, holders.greatestLayer⟩
      registry := holders.registry }
  origins := .empty
  settings := ⟨0, ∅, (∅ : Std.ExtTreeMap VarId VarId).insert ⟨0⟩ ⟨7⟩⟩

/-- A procedure that takes a variable of each domain and one of none. -/
def taking : Procedure := ⟨⟨0⟩, "take", [⟨0⟩, ⟨1⟩, ⟨3⟩], [], .zero⟩

theorem permissionUnions_partition_scope_taking : holders.check = .ok keeper.checked ∧
    ∃ e, (⟨1⟩, e) ∈ keeper.permissionUnions (.procedure taking) ∧
      ⟨7⟩ ∈ e.freeVars ∧ ⟨2⟩ ∈ e.freeVars := by
  obtain ⟨-, hunions, hscope, -⟩ :=
    permissionUnions_partition_scope holders keeper rfl (.procedure taking)
  obtain ⟨e, hentry, hvars⟩ := hunions ⟨1⟩ "Token" (by decide +kernel)
  refine ⟨rfl, e, (hentry e).mpr rfl, (hvars ⟨7⟩).mpr ⟨⟨0⟩, (hscope ⟨0⟩).mpr ?_, ?_, ?_⟩,
    (hvars ⟨2⟩).mpr ⟨⟨2⟩, (hscope ⟨2⟩).mpr ?_, ?_, ?_⟩⟩
  all_goals decide +kernel

end Instrumenter

end OwnershipFlow
