import OwnershipFlow.Implementation.Copy
import OwnershipFlow.Variable

/-!
# Programs

A program holds its variables in order of declaration, its procedures and implementations by
identifier, and the supply from which identifiers are taken. A variable's identifier is its position
in that order. The list of globals records the variables that were global when they were declared,
and later changes to a declaration leave the list as it is.
-/

set_option autoImplicit false
set_option relaxedAutoImplicit false

namespace OwnershipFlow

/-- A program: variables, procedures, implementations and a supply of identifiers. -/
structure Program where
  vars : List Variable
  globals : List VarId
  procedures : Std.ExtTreeMap ProcId Procedure
  implementations : Std.ExtTreeMap ImplId Implementation
  supply : Supply
  deriving DecidableEq

namespace Program

/-- The program without declarations. -/
def empty : Program where
  vars := []
  globals := []
  procedures := ∅
  implementations := ∅
  supply := .initial

/-! ### Variables -/

/-- Declares a variable. -/
def addVar (p : Program) (v : Variable) : VarId × Program :=
  let id : VarId := ⟨p.vars.length⟩
  (id, { p with
    vars := p.vars ++ [v]
    globals := if v.isGlobal then p.globals ++ [id] else p.globals })

/-- The declaration of a variable. -/
def var? (p : Program) (id : VarId) : Option Variable :=
  p.vars[id.index]?

/-- Overwrites the declaration of a variable; an identifier without a declaration stays without
one. -/
def setVar (p : Program) (id : VarId) (v : Variable) : Program :=
  { p with vars := p.vars.set id.index v }

/-- The kind of a variable. What is not declared is not linear. -/
def kind (p : Program) (id : VarId) : LinearKind :=
  (p.var? id).elim .ordinary Variable.kind

/-- Whether a variable is declared, local and of linear kind. -/
def isTracked (p : Program) (id : VarId) : Bool :=
  (p.var? id).any Variable.isTracked

/-- A variable of linear kind is declared. -/
theorem var?_isSome_of_isLinear {p : Program} {id : VarId} (h : (p.kind id).isLinear = true) :
    (p.var? id).isSome = true := by
  cases hv : p.var? id with
  | none => simp [kind, hv, LinearKind.isLinear] at h
  | some v => rfl

/-- Every variable with its identifier, in order of declaration. -/
def declarations (p : Program) : List (VarId × Variable) :=
  p.vars.zipIdx.map fun (v, index) ↦ (⟨index⟩, v)

/-- The variables of a given name, in order of declaration. -/
def findVar (p : Program) (name : String) : List VarId :=
  (p.declarations.filter (·.2.name = name)).map (·.1)

/-! ### Procedures and implementations -/

/-- Declares a procedure. -/
def addProcedure (p : Program) (name : String) (ins outs : List VarId) (span : Span) :
    ProcId × Program :=
  let (id, supply) := p.supply.freshProcedure
  (id, { p with procedures := p.procedures.insert id { id, name, ins, outs, span }, supply })

/-- Puts an implementation into the program under its identifier. -/
def putImplementation (p : Program) (imp : Implementation) : Program :=
  { p with implementations := p.implementations.insert imp.id imp }

/-- Gives a procedure a body. The implementation takes name, parameters and span from the procedure.
An unknown procedure gets no implementation, and no identifier is taken. -/
def addImplementation? (p : Program) (procedure : ProcId) (locals : List VarId)
    (blocks : List Block) : Option (ImplId × Program) :=
  p.procedures[procedure]?.map fun declared ↦
    let (id, supply) := p.supply.freshImplementation
    let imp : Implementation :=
      { id, procedure, locals, blocks,
        name := declared.name, ins := declared.ins, outs := declared.outs, span := declared.span }
    (id, { p with supply }.putImplementation imp)

/-- Changes a procedure, if it is declared. -/
def modifyProcedure (p : Program) (id : ProcId) (f : Procedure → Procedure) : Program :=
  { p with procedures := p.procedures.modify id f }

/-- Changes an implementation, if the program has it. -/
def modifyImplementation (p : Program) (id : ImplId) (f : Implementation → Implementation) :
    Program :=
  { p with implementations := p.implementations.modify id f }

/-- Copies an implementation under fresh identifiers and puts the copy into the program. Gives the
copy and the relation of its points to those of its source. -/
def copyImplementation? (p : Program) (id : ImplId) :
    Option (Implementation × List (Node × Node) × Program) :=
  p.implementations[id]?.map fun source ↦
    let (derived, supply) := source.copy p.supply
    (derived, Implementation.copyPairs derived source,
      { p with supply }.putImplementation derived)

/-- Every point of the program: the procedures and the implementations, the latter with their blocks
and commands. -/
def nodes (p : Program) : List Node :=
  p.procedures.keys.map .procedure ++ p.implementations.values.flatMap Implementation.nodes

end Program

end OwnershipFlow
