import Mathlib.Order.Bounds.Defs
import OwnershipFlow.Diagnostic
import OwnershipFlow.Proofs.Boundary

/-!
# Accepted programs and the bound of their layers

Three rules apply to the declaration of a variable (`Rule`), and they are checked in a fixed order.
What a rule asks is said without the checks (`Variable.Keeps`), and so is the text of the report
about a declaration that breaks it (`Variable.Breaks`). A program is accepted exactly if all its
declarations keep all rules (`exists_check_iff`). Otherwise the report is about the first
declaration that does not, and about the first rule that it breaks (`exists_error_iff`).

In an accepted program the layers of every variable, declared or not, are a non-empty part of the
default layers (`Checked.LayersBounded`), which end at the greatest declared upper bound. A pass
above that bound finds no variable in scope at any point. A hole may be left as the only term of a
domain, and one term states nothing in the collector encoding, so such a pass leaves implementations
without assumptions (`Instrumenter.Idle`).
-/

set_option autoImplicit false
set_option relaxedAutoImplicit false

namespace OwnershipFlow

/-! ### Rules for declarations -/

/-- The rules for the declaration of a variable. -/
inductive Rule
  | domain
  | direction
  | layers
  deriving DecidableEq, Repr

namespace Rule

/-- The rules in the order in which they are checked. -/
def inOrder : List Rule := [domain, direction, layers]

theorem mem_inOrder (rule : Rule) : rule ∈ inOrder := by
  cases rule <;> decide

end Rule

theorem LinearKind.isDirectional_iff {k : LinearKind} :
    k.isDirectional = true ↔ k = .linearIn ∨ k = .linearOut := by
  cases k <;> decide

namespace Variable

variable {declared : Variable} {rule : Rule} {message : String}

/-- What a rule asks of a declaration: a domain exactly for a variable of linear kind, no kind
restricted to one end of a call for a global variable, and bounds of layers that do not cross. -/
def Keeps (declared : Variable) : Rule → Prop
  | .domain => (∃ name, declared.domain? = some name) ↔ declared.kind ≠ .ordinary
  | .direction => declared.isGlobal = true →
      declared.kind ≠ .linearIn ∧ declared.kind ≠ .linearOut
  | .layers => ∀ range, declared.layers? = some range → range.lower ≤ range.upper

/-- A declaration that keeps every rule. -/
def WellFormed (declared : Variable) : Prop :=
  ∀ rule, declared.Keeps rule

/-- What is said about a declaration that breaks a rule. -/
inductive Breaks (declared : Variable) : Rule → String → Prop
  | missingDomain (hkind : declared.kind ≠ .ordinary) (hdomain : declared.domain? = none) :
    Breaks declared .domain s!"linear variable `{declared.name}` has no domain"
  | strayDomain {domain : String} (hkind : declared.kind = .ordinary)
      (hdomain : declared.domain? = some domain) :
    Breaks declared .domain
      s!"variable `{declared.name}` names domain `{domain}` but is not linear"
  | directional {found : String} (hglobal : declared.isGlobal = true)
      (hkind : (declared.kind = .linearIn ∧ found = "LinearIn") ∨
        (declared.kind = .linearOut ∧ found = "LinearOut")) :
    Breaks declared .direction
      s!"global variable `{declared.name}` must be plain linear, found {found}"
  | crossed {range : LayerRange} (hlayers : declared.layers? = some range)
      (hcrossed : range.upper < range.lower) :
    Breaks declared .layers
      s!"variable `{declared.name}` has empty layer range {range.lower}..{range.upper}"

/-- What is said about the first rule that a declaration breaks. -/
def FirstBreaks (declared : Variable) (message : String) : Prop :=
  ∃ earlier rule later, Rule.inOrder = earlier ++ rule :: later ∧
    (∀ kept ∈ earlier, declared.Keeps kept) ∧ declared.Breaks rule message

theorem domainFault?_eq_some_iff {fault : Fault} : declared.domainFault? = some fault ↔
    (declared.kind ≠ .ordinary ∧ declared.domain? = none ∧ fault = .missingDomain) ∨
      ∃ domain, declared.kind = .ordinary ∧ declared.domain? = some domain ∧
        fault = .strayDomain domain := by
  rw [domainFault?, ← not_ne_iff (b := LinearKind.ordinary), ← LinearKind.isLinear_iff]
  cases declared.kind.isLinear <;> cases declared.domain? <;> simp [eq_comm]

theorem directionFault?_eq_some_iff {fault : Fault} : declared.directionFault? = some fault ↔
    declared.isGlobal = true ∧ (declared.kind = .linearIn ∨ declared.kind = .linearOut) ∧
      fault = .directionalGlobal declared.kind := by
  rw [directionFault?, Option.ite_none_right_eq_some, Bool.and_eq_true,
    LinearKind.isDirectional_iff, and_assoc, Option.some_inj, eq_comm (a := fault)]

theorem layersFault?_eq_some_iff {fault : Fault} : declared.layersFault? = some fault ↔
    ∃ range, declared.layers? = some range ∧ range.upper < range.lower ∧
      fault = .emptyLayers range := by
  simp only [layersFault?, Option.bind_eq_some_iff, Option.ite_none_right_eq_some,
    LayerRange.isEmpty, decide_eq_true_eq, Option.some_inj, eq_comm (a := fault)]

/-- The fault that the check of a rule finds. -/
def faultOf? (declared : Variable) : Rule → Option Fault
  | .domain => declared.domainFault?
  | .direction => declared.directionFault?
  | .layers => declared.layersFault?

theorem faultOf?_eq_none_iff : declared.faultOf? rule = none ↔ declared.Keeps rule := by
  cases rule with
  | domain =>
    rw [faultOf?, domainFault?, Keeps, ← LinearKind.isLinear_iff]
    cases declared.kind.isLinear <;> cases declared.domain? <;> simp
  | direction =>
    rw [faultOf?, directionFault?, Keeps, ← not_or, ← LinearKind.isDirectional_iff]
    simp
  | layers =>
    rw [faultOf?, layersFault?, Keeps]
    cases declared.layers? <;> simp [LayerRange.isEmpty]

/-- The check of a rule finds a fault exactly if the rule is broken, and the report about the fault
is the one about the rule. -/
theorem exists_faultOf?_iff : (∃ fault, declared.faultOf? rule = some fault ∧
    (TypeError.mk declared fault).message = message) ↔ declared.Breaks rule message := by
  constructor
  · rintro ⟨fault, hfault, rfl⟩
    cases rule with
    | domain =>
      obtain ⟨hkind, hdomain, rfl⟩ | ⟨domain, hkind, hdomain, rfl⟩ :=
        domainFault?_eq_some_iff.mp hfault
      · exact .missingDomain hkind hdomain
      · exact .strayDomain hkind hdomain
    | direction =>
      obtain ⟨hglobal, hkind, rfl⟩ := directionFault?_eq_some_iff.mp hfault
      exact .directional hglobal (hkind.imp (fun h ↦ ⟨h, congrArg LinearKind.name h⟩)
        fun h ↦ ⟨h, congrArg LinearKind.name h⟩)
    | layers =>
      obtain ⟨range, hlayers, hcrossed, rfl⟩ := layersFault?_eq_some_iff.mp hfault
      exact .crossed hlayers hcrossed
  · intro hbreaks
    cases hbreaks with
    | missingDomain hkind hdomain =>
      exact ⟨_, domainFault?_eq_some_iff.mpr (.inl ⟨hkind, hdomain, rfl⟩), rfl⟩
    | strayDomain hkind hdomain =>
      exact ⟨_, domainFault?_eq_some_iff.mpr (.inr ⟨_, hkind, hdomain, rfl⟩), rfl⟩
    | directional hglobal hkind =>
      refine ⟨_, directionFault?_eq_some_iff.mpr ⟨hglobal, hkind.imp And.left And.left, rfl⟩, ?_⟩
      obtain ⟨hkind, rfl⟩ | ⟨hkind, rfl⟩ := hkind <;> rw [hkind] <;> rfl
    | crossed hlayers hcrossed =>
      exact ⟨_, layersFault?_eq_some_iff.mpr ⟨_, hlayers, hcrossed, rfl⟩, rfl⟩

/-- The rules are checked one after the other. -/
theorem fault?_eq_findSome? : declared.fault? = Rule.inOrder.findSome? declared.faultOf? := by
  simp only [fault?, Rule.inOrder, List.findSome?_cons, List.findSome?_nil, faultOf?]
  cases declared.domainFault? <;> cases declared.directionFault? <;>
    cases declared.layersFault? <;> rfl

theorem fault?_eq_none_iff : declared.fault? = none ↔ declared.WellFormed := by
  simp only [fault?_eq_findSome?, List.findSome?_eq_none_iff, Rule.mem_inOrder,
    faultOf?_eq_none_iff, true_imp_iff, WellFormed]

/-- The fault found first is that of the first rule that is broken. -/
theorem exists_fault?_iff : (∃ fault, declared.fault? = some fault ∧
    (TypeError.mk declared fault).message = message) ↔ declared.FirstBreaks message := by
  simp only [fault?_eq_findSome?, List.findSome?_eq_some_iff, faultOf?_eq_none_iff]
  constructor
  · rintro ⟨fault, ⟨earlier, rule, later, horder, hfault, hearlier⟩, hmessage⟩
    exact ⟨earlier, rule, later, horder, hearlier, exists_faultOf?_iff.mp ⟨fault, hfault, hmessage⟩⟩
  · rintro ⟨earlier, rule, later, horder, hearlier, hbreaks⟩
    obtain ⟨fault, hfault, hmessage⟩ := exists_faultOf?_iff.mpr hbreaks
    exact ⟨fault, ⟨earlier, rule, later, horder, hfault, hearlier⟩, hmessage⟩

end Variable

/-! ### Acceptance -/

namespace Program

variable {p : Program} {c : Checked} {message : String} {span : Span}

/-- The report about a program: where the first declaration stands that is not well formed, and what
is said about the first rule that it breaks. -/
def Refused (p : Program) (message : String) (span : Span) : Prop :=
  ∃ before declared after, p.vars = before ++ declared :: after ∧
    (∀ other ∈ before, other.WellFormed) ∧ declared.FirstBreaks message ∧ declared.span = span

theorem exists_check_iff :
    (∃ c, p.check = .ok c) ↔ ∀ declared ∈ p.vars, declared.WellFormed := by
  simp only [← Variable.fault?_eq_none_iff]
  exact ⟨fun ⟨_, hcheck⟩ ↦ (eq_of_check hcheck).1, fun h ↦ ⟨_, check_eq_ok h⟩⟩

theorem check_eq_error_iff {e : TypeError} : p.check = .error e ↔ p.typeError? = some e := by
  rw [check]
  cases p.typeError? <;> simp

theorem exists_error_iff : (∃ e, p.check = .error e ∧ e.message = message ∧
    e.diagnostic.labels = [(none, span)]) ↔ p.Refused message span := by
  simp only [check_eq_error_iff, typeError?, List.findSome?_eq_some_iff, Option.map_eq_none_iff,
    Option.map_eq_some_iff, Variable.fault?_eq_none_iff]
  constructor
  · rintro ⟨_, ⟨before, declared, after, hvars, ⟨fault, hfault, rfl⟩, hbefore⟩, hmessage, hlabels⟩
    cases hlabels
    exact ⟨before, declared, after, hvars, hbefore,
      Variable.exists_fault?_iff.mp ⟨fault, hfault, hmessage⟩, rfl⟩
  · rintro ⟨before, declared, after, hvars, hbefore, hbreaks, rfl⟩
    obtain ⟨fault, hfault, hmessage⟩ := Variable.exists_fault?_iff.mpr hbreaks
    exact ⟨⟨declared, fault⟩, ⟨before, declared, after, hvars, ⟨fault, hfault, rfl⟩, hbefore⟩,
      hmessage, rfl⟩

/-! ### The bound of layers -/

/-- The program declares a range of layers with the given upper bound. -/
def DeclaresUpper (p : Program) (bound : Nat) : Prop :=
  ∃ declared ∈ p.vars, ∃ range, declared.layers? = some range ∧ range.upper = bound

theorem mem_uppers {bound : Nat} :
    bound ∈ (p.vars.filterMap Variable.layers?).map LayerRange.upper ↔ p.DeclaresUpper bound := by
  simp only [List.mem_map, List.mem_filterMap, DeclaresUpper]
  constructor
  · rintro ⟨range, ⟨declared, hdeclared, hlayers⟩, hupper⟩
    exact ⟨declared, hdeclared, range, hlayers, hupper⟩
  · rintro ⟨declared, hdeclared, range, hlayers, hupper⟩
    exact ⟨range, ⟨declared, hdeclared, hlayers⟩, hupper⟩

theorem greatestLayer_eq : p.greatestLayer =
    ((p.vars.filterMap Variable.layers?).map LayerRange.upper).max?.getD 0 := by
  rw [greatestLayer, ← List.foldl_map (f := LayerRange.upper) (g := max), List.foldl_max,
    Nat.zero_max]

/-- The greatest layer is the greatest upper bound that is declared, or zero if there is none. -/
theorem greatestLayer_spec : IsGreatest {bound | p.DeclaresUpper bound} p.greatestLayer ∨
    (∀ bound, ¬ p.DeclaresUpper bound) ∧ p.greatestLayer = 0 := by
  simp only [← mem_uppers, greatestLayer_eq]
  cases hmax : ((p.vars.filterMap Variable.layers?).map LayerRange.upper).max? with
  | none =>
    rw [List.max?_eq_none_iff.mp hmax]
    exact .inr ⟨fun _ ↦ List.not_mem_nil, rfl⟩
  | some greatest =>
    obtain ⟨hmem, hle⟩ := List.max?_eq_some_iff.mp hmax
    exact .inl ⟨hmem, hle⟩

theorem le_greatestLayer {bound : Nat} (h : p.DeclaresUpper bound) : bound ≤ p.greatestLayer := by
  obtain hgreatest | ⟨hnone, -⟩ := p.greatestLayer_spec
  · exact hgreatest.2 h
  · exact absurd h (hnone bound)

end Program

/-- The layers of every variable, declared or not, are a non-empty part of the default layers. -/
def Checked.LayersBounded (c : Checked) : Prop :=
  ∀ v, c.defaultLayers.lower ≤ (c.layers v).lower ∧ (c.layers v).lower ≤ (c.layers v).upper ∧
    (c.layers v).upper ≤ c.defaultLayers.upper

theorem Program.layersBounded_of_check {p : Program} {c : Checked} (h : p.check = .ok c) :
    c.LayersBounded := by
  obtain ⟨hfault, rfl⟩ := eq_of_check h
  intro v
  rw [Checked.layers]
  refine ⟨Nat.zero_le _, ?_⟩
  cases hlayers : (p.vars[v.index]?).bind Variable.layers? with
  | none =>
    rw [Checked.var?, hlayers]
    exact ⟨Nat.zero_le _, Nat.le_refl _⟩
  | some range =>
    obtain ⟨declared, hdeclared, hrange⟩ := Option.bind_eq_some_iff.mp hlayers
    have hmem := List.mem_of_getElem? hdeclared
    have hkeeps := Variable.fault?_eq_none_iff.mp (hfault declared hmem) .layers
    rw [Checked.var?, hlayers]
    exact ⟨hkeeps range hrange, le_greatestLayer ⟨declared, hmem, range, hrange, rfl⟩⟩

/-! ### Passes above all layers -/

/-- A change that leaves blocks as they are leaves the implementation as it is. -/
theorem Implementation.modifyBlock_id (imp : Implementation) (id : BlockId) :
    imp.modifyBlock id (fun b ↦ b) = imp := by
  suffices h : ∀ blocks, modifyFirst id (fun b ↦ b) blocks = blocks by rw [modifyBlock, h]
  intro blocks
  induction blocks with
  | nil => rfl
  | cons b rest ih => rw [modifyFirst, ih, ite_self]

namespace Instrumenter

variable {t : Instrumenter} {imp : Implementation} {s : Supply}

/-- No predicate is written and no assumption is placed, whatever is asked for. What remains of a
pass is the removal of unreachable blocks and the record of predecessors. -/
structure Idle (t : Instrumenter) : Prop where
  disjointnessAt : ∀ point globals, t.disjointnessAt point globals = []
  assumeAt : ∀ point globals span s, t.assumeAt point globals span s = ([], s)
  assumeAtBoundary : ∀ declared entry s, t.assumeAtBoundary declared entry s = ([], s)
  implementation : ∀ imp s,
    (t.instrument imp s).implementation = imp.prune.recordPredecessors
  supply : ∀ imp s, (t.instrument imp s).supply = s

/-- A pass above the default layers is at no layer of any variable. -/
theorem not_contains_layer (hbounded : t.checked.LayersBounded)
    (hlayer : t.checked.defaultLayers.upper < t.settings.layer) (v : VarId) :
    ¬ (t.checked.layers v).contains t.settings.layer = true := by
  rw [LayerRange.contains_iff]
  have := (hbounded v).2.2
  omega

/-- Where nothing is in scope, the hole is the only term that a domain can have. -/
theorem length_terms_nil {d : DomainId} {name : String} : (t.terms [] d name).length < 2 := by
  have hpermissions : t.permissions [] d name = [] := rfl
  rw [terms, hpermissions, List.nil_append, List.length_map]
  cases t.settings.hole? d with
  | none => exact Nat.zero_lt_two
  | some _ => exact Nat.one_lt_two

/-- Nothing is stated where nothing is in scope, holes notwithstanding. -/
theorem disjointness_nil (hencoding : t.checked.registry.encoding = .collector) :
    t.disjointness [] = [] := by
  rw [disjointness, List.filter_eq_nil_iff]
  intro e he
  obtain ⟨⟨d, name⟩, -, rfl⟩ := List.mem_map.mp he
  dsimp only
  rw [hencoding, Encoding.collector_disjointness_of_length_lt_two length_terms_nil]
  decide

section Nothing

-- With nothing to assume at any point, no part of the pass places a command or takes a number. This
-- needs no distinct identifiers, unlike the description of passes in general.
variable (hnothing : ∀ point globals span s, t.assumeAt point globals span s = ([], s))

include hnothing

theorem afterCalls_eq_self (commands : List Command) :
    t.afterCalls commands s = (commands, s) := by
  induction commands with
  | nil => rfl
  | cons command rest ih =>
    have hafter : t.assumeAfter command s = ([], s) := by
      rw [assumeAfter, hnothing, ite_self]
    rw [afterCalls, hafter]
    dsimp only
    rw [ih, List.nil_append]

theorem afterCallsOfBlocks_eq_self (blocks : List Block) :
    t.afterCallsOfBlocks blocks s = (blocks, s) := by
  induction blocks with
  | nil => rfl
  | cons b rest ih =>
    rw [afterCallsOfBlocks, afterCalls_eq_self hnothing]
    dsimp only
    rw [ih]

theorem atHeader_eq_self {header : BlockId} : t.atHeader (imp, s) header = (imp, s) := by
  rw [atHeader]
  cases imp.block? header with
  | none => rfl
  | some block =>
    dsimp only
    rw [hnothing]
    exact congrArg (·, s) (Implementation.modifyBlock_id imp header)

theorem atHeaders_eq_self {headers : List BlockId} :
    t.atHeaders headers (imp, s) = (imp, s) := by
  rw [atHeaders]
  induction headers with
  | nil => rfl
  | cons header rest ih => rw [List.foldl_cons, atHeader_eq_self hnothing, ih]

/-- The pass prunes and records predecessors, however it ends. -/
theorem instrument_eq_prune : (t.instrument imp s).implementation = imp.prune.recordPredecessors ∧
    (t.instrument imp s).supply = s := by
  have hcalls : t.withCalls imp s = (imp.prune.recordPredecessors, s) := by
    rw [withCalls, afterCallsOfBlocks_eq_self hnothing]
  rw [instrument, hcalls]
  dsimp only
  split
  · exact ⟨rfl, rfl⟩
  · split
    · rw [atHeaders_eq_self hnothing]
      exact ⟨rfl, rfl⟩
    · exact ⟨rfl, rfl⟩

end Nothing

theorem assume_nil {span : Span} : assume [] span s = ([], s) := by
  rw [assume, List.length_nil, Supply.skipCommands_zero]
  rfl

/-- A pass above all layers of an accepted program states and places nothing. -/
theorem idle_of_lt {p : Program} (hcheck : p.check = .ok t.checked)
    (hlayer : t.checked.defaultLayers.upper < t.settings.layer) : t.Idle := by
  have hcontains := not_contains_layer (Program.layersBounded_of_check hcheck) hlayer
  have hnil := disjointness_nil (encoding_of_check hcheck)
  have hscope (point globals) : t.scope point globals = [] :=
    List.eq_nil_iff_forall_not_mem.mpr fun v hv ↦ hcontains v (mem_scope_iff.mp hv).2
  have hboundary (declared entry) : t.boundaryScope declared entry = [] :=
    List.eq_nil_iff_forall_not_mem.mpr fun v hv ↦ hcontains v (mem_boundaryScope.mp hv).2
  have hat (point globals) : t.disjointnessAt point globals = [] := by
    rw [disjointnessAt, hscope, hnil]
  have hassume (point globals span s) : t.assumeAt point globals span s = ([], s) := by
    rw [assumeAt, hat, assume_nil]
  refine ⟨hat, hassume, fun declared entry s ↦ ?_, fun imp s ↦ (instrument_eq_prune hassume).1,
    fun imp s ↦ (instrument_eq_prune hassume).2⟩
  rw [assumeAtBoundary, hboundary, hnil, assume_nil]

end Instrumenter

namespace Program

/-- A program is accepted exactly if all its declarations are well formed. Otherwise the report is
about the first declaration that is not and the first rule that it breaks. In an accepted program
the default layers reach from zero to the greatest declared upper bound, if there is one, and
enclose the layers of every variable, none of which are empty. A pass above them states and places
nothing, whatever holes and substitutes it is given and whatever its nodes stand for. -/
theorem check_accepts_wellFormed (p : Program) :
    ((∃ c, p.check = .ok c) ↔ ∀ declared ∈ p.vars, declared.WellFormed) ∧
    (∀ message span, (∃ e, p.check = .error e ∧ e.message = message ∧
      e.diagnostic.labels = [(none, span)]) ↔ p.Refused message span) ∧
    ∀ c, p.check = .ok c →
      c.defaultLayers.lower = 0 ∧
      (IsGreatest {bound | p.DeclaresUpper bound} c.defaultLayers.upper ∨
        (∀ bound, ¬ p.DeclaresUpper bound) ∧ c.defaultLayers.upper = 0) ∧
      c.LayersBounded ∧
      ∀ t : Instrumenter, t.checked = c → c.defaultLayers.upper < t.settings.layer → t.Idle := by
  refine ⟨exists_check_iff, fun _ _ ↦ exists_error_iff, fun c hcheck ↦ ⟨?_, ?_,
    layersBounded_of_check hcheck, ?_⟩⟩
  · rw [(eq_of_check hcheck).2]
  · rw [(eq_of_check hcheck).2]
    exact greatestLayer_spec
  · rintro t rfl hlayer
    exact Instrumenter.idle_of_lt hcheck hlayer

/-- Two variables of one domain, one of them with layers of its own. -/
def staged : Program :=
  ((Program.empty.addVar ⟨"token", false, .linear, some "Token", some ⟨1, 4⟩, .zero⟩).2.addVar
    ⟨"pool", true, .linear, some "Token", none, .zero⟩).2

/-- A global variable that breaks every rule, and after it a variable that breaks one. -/
def disordered : Program :=
  ((staged.addVar ⟨"queue", true, .linearIn, none, some ⟨3, 1⟩, ⟨12, 5⟩⟩).2.addVar
    ⟨"count", false, .ordinary, some "Token", none, ⟨20, 5⟩⟩).2

/-- A pass with a hole at a layer at which neither of the two variables exists. -/
def beyond : Instrumenter where
  checked := ⟨staged.vars, staged.globals, staged.signatures, ⟨0, 4⟩, staged.registry⟩
  origins := .empty
  settings := ⟨5, (∅ : Std.ExtTreeMap DomainId VarId).insert ⟨0⟩ ⟨7⟩, ∅⟩

theorem check_accepts_wellFormed_staged :
    disordered.Refused "linear variable `queue` has no domain" ⟨12, 5⟩ ∧
    staged.check = .ok beyond.checked ∧ IsGreatest {bound | staged.DeclaresUpper bound} 4 ∧
    beyond.settings.hole? ⟨0⟩ = some ⟨7⟩ ∧ beyond.Idle := by
  obtain ⟨-, hrefused, -⟩ := check_accepts_wellFormed disordered
  obtain ⟨-, -, haccepted⟩ := check_accepts_wellFormed staged
  obtain ⟨-, hgreatest | ⟨hnone, -⟩, -, hidle⟩ := haccepted beyond.checked rfl
  · refine ⟨(hrefused _ _).mp ⟨⟨⟨"queue", true, .linearIn, none, some ⟨3, 1⟩, ⟨12, 5⟩⟩,
      .missingDomain⟩, rfl, rfl, rfl⟩, rfl, hgreatest, by decide +kernel, ?_⟩
    exact hidle beyond rfl (by decide)
  · exact absurd ⟨_, List.mem_cons_self, ⟨1, 4⟩, rfl, rfl⟩ (hnone 4)

end Program

end OwnershipFlow
