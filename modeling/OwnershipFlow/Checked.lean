import OwnershipFlow.Permission.Registry

/-!
# Checked programs

A variable is well formed if it names a domain exactly when it is of linear kind, if a global
variable has no directional kind, and if its declared layers are not empty. A program is accepted if
all its variables are well formed; otherwise the first one that is not is reported, with the first
of these rules that it breaks.

What is known about an accepted program is recorded once and for all, so the program can be changed
while the record is still in use: declarations, globals, parameter lists, the registry, and the
default layers. These reach from zero to the greatest declared upper bound and apply to every
variable that declares no layers.
-/

set_option autoImplicit false
set_option relaxedAutoImplicit false

namespace OwnershipFlow

/-! ### Well-formed variables -/

/-- The ways in which the declaration of a variable can be ill formed. -/
inductive Fault
  | missingDomain
  | strayDomain (domain : String)
  | directionalGlobal (kind : LinearKind)
  | emptyLayers (range : LayerRange)
  deriving DecidableEq, Repr

namespace Variable

/-- A variable names a domain exactly when it is of linear kind. -/
def domainFault? (v : Variable) : Option Fault :=
  match v.kind.isLinear, v.domain? with
  | true, none => some .missingDomain
  | false, some domain => some (.strayDomain domain)
  | _, _ => none

/-- A global variable owns its permissions at both ends of a call or at none. -/
def directionFault? (v : Variable) : Option Fault :=
  if v.isGlobal && v.kind.isDirectional then some (.directionalGlobal v.kind) else none

/-- Declared layers are not empty. -/
def layersFault? (v : Variable) : Option Fault :=
  v.layers?.bind fun range ↦ if range.isEmpty then some (.emptyLayers range) else none

/-- The first rule that the declaration breaks. -/
def fault? (v : Variable) : Option Fault :=
  v.domainFault? <|> v.directionFault? <|> v.layersFault?

end Variable

/-- A variable whose declaration is ill formed. -/
structure TypeError where
  declaration : Variable
  fault : Fault
  deriving DecidableEq, Repr

namespace TypeError

/-- What is wrong with the variable. -/
def message (e : TypeError) : String :=
  let name := e.declaration.name
  match e.fault with
  | .missingDomain => s!"linear variable `{name}` has no domain"
  | .strayDomain domain => s!"variable `{name}` names domain `{domain}` but is not linear"
  | .directionalGlobal kind =>
    s!"global variable `{name}` must be plain linear, found {kind.name}"
  | .emptyLayers range =>
    s!"variable `{name}` has empty layer range {range.lower}..{range.upper}"

end TypeError

/-! ### The record of an accepted program -/

/-- The parameter lists of a procedure or an implementation. -/
structure Signature where
  ins : List VarId
  outs : List VarId
  deriving DecidableEq, Repr

/-- The parameter lists of a procedure, under its node. -/
def Procedure.signature (d : Procedure) : Node × Signature :=
  (.procedure d.id, ⟨d.ins, d.outs⟩)

/-- The parameter lists of an implementation, under its node. -/
def Implementation.signature (imp : Implementation) : Node × Signature :=
  (.implementation imp.id, ⟨imp.ins, imp.outs⟩)

/-- What is known about an accepted program. -/
structure Checked where
  vars : List Variable
  globals : List VarId
  signatures : Std.ExtTreeMap Node Signature
  /-- The layers of variables that declare none. -/
  defaultLayers : LayerRange
  registry : Registry

namespace Program

/-- The first ill-formed variable. -/
def typeError? (p : Program) : Option TypeError :=
  p.vars.findSome? fun v ↦ v.fault?.map fun fault ↦ ⟨v, fault⟩

/-- The parameter lists of all procedures and implementations. -/
def signatures (p : Program) : Std.ExtTreeMap Node Signature :=
  .ofList (p.procedures.values.map Procedure.signature ++
    p.implementations.values.map Implementation.signature)

/-- The greatest declared upper bound, or zero. -/
def greatestLayer (p : Program) : Nat :=
  (p.vars.filterMap Variable.layers?).foldl (fun greatest range ↦ max greatest range.upper) 0

/-- Checks the variables and records what is known about the program. -/
def check (p : Program) : Except TypeError Checked :=
  match p.typeError? with
  | some e => .error e
  | none => .ok
    { vars := p.vars
      globals := p.globals
      signatures := p.signatures
      defaultLayers := ⟨0, p.greatestLayer⟩
      registry := p.registry }

end Program

namespace Checked

/-- Replaces the encoding of permissions. -/
def withEncoding (c : Checked) (encoding : Encoding) : Checked :=
  { c with registry := c.registry.withEncoding encoding }

/-- The declaration of a variable. -/
def var? (c : Checked) (id : VarId) : Option Variable :=
  c.vars[id.index]?

/-- The kind of a variable. What is not declared is not linear. -/
def kind (c : Checked) (id : VarId) : LinearKind :=
  (c.var? id).elim .ordinary Variable.kind

/-- Whether a variable is declared and global. -/
def isGlobal (c : Checked) (id : VarId) : Bool :=
  (c.var? id).any Variable.isGlobal

/-- The layers at which a variable exists: those declared, or else the default ones. -/
def layers (c : Checked) (id : VarId) : LayerRange :=
  ((c.var? id).bind Variable.layers?).getD c.defaultLayers

/-- The parameter lists recorded for a node. -/
def signature? (c : Checked) (n : Node) : Option Signature :=
  c.signatures[n]?

end Checked

end OwnershipFlow
