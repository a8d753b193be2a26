import OwnershipFlow.Checked
import OwnershipFlow.Origins
import OwnershipFlow.Settings

/-!
# Linear scope

An instrumenter answers questions about a checked program at the layer of its settings. The scope at
a program point lists the variables that hold ownership there:

- at a procedure or an implementation, the in-parameters that are owned at entry, taken from the
  signature of the declaration that the point stands for, or else from the declaration at hand;
- at a block or a command, the local variables that are available at the node it stands for;
- on request, the global variables of plain linear kind.

Only variables that exist at the layer belong to the scope. Variables are listed under their own
names; substitutes are put in where predicates are written.
-/

set_option autoImplicit false
set_option relaxedAutoImplicit false

namespace OwnershipFlow

/-- A place at which linear scope is asked for. Declarations are given in full, since their
parameter lists are needed where they stand for nothing else. -/
inductive Point
  | procedure (declared : Procedure)
  | implementation (declared : Implementation)
  | block (id : BlockId)
  | command (id : CommandId)
  deriving DecidableEq, Repr

namespace Point

/-- The node of a point. -/
def node : Point → Node
  | procedure declared => .procedure declared.id
  | implementation declared => .implementation declared.id
  | block id => .block id
  | command id => .command id

end Point

/-- A checked program, the origins of nodes derived from it, and the settings of a pass. -/
structure Instrumenter where
  checked : Checked
  origins : Origins
  settings : Settings

namespace Instrumenter

/-- Whether a variable exists at the layer of the pass. -/
def atLayer (t : Instrumenter) (v : VarId) : Bool :=
  (t.checked.layers v).contains t.settings.layer

/-- The parameters owned at entry. -/
def ownedAtEntry (t : Instrumenter) (params : List VarId) : List VarId :=
  params.filter fun v ↦ (t.checked.kind v).ownedAtEntry && t.atLayer v

/-- The parameters owned at exit. -/
def ownedAtExit (t : Instrumenter) (params : List VarId) : List VarId :=
  params.filter fun v ↦ (t.checked.kind v).ownedAtExit && t.atLayer v

/-- The parameters owned at the entry of a declaration: those of the signature of the node that it
stands for, if it is derived and that node has a signature, and otherwise those given. -/
def entryScope (t : Instrumenter) (n : Node) (ins : List VarId) : List VarId :=
  t.ownedAtEntry (((t.origins.get? n).bind t.checked.signature?).elim ins Signature.ins)

/-- The local variables available at the node that a block or a command stands for. -/
def flowScope (t : Instrumenter) (n : Node) : List VarId :=
  (t.checked.registry.availableAt (t.origins.resolve n)).toList.filter fun v ↦
    !t.checked.isGlobal v && t.atLayer v

/-- The scope at a point, without globals. -/
def localScope (t : Instrumenter) : Point → List VarId
  | .procedure declared => t.entryScope (.procedure declared.id) declared.ins
  | .implementation declared => t.entryScope (.implementation declared.id) declared.ins
  | .block id => t.flowScope (.block id)
  | .command id => t.flowScope (.command id)

/-- The global variables of plain linear kind. -/
def globalScope (t : Instrumenter) : List VarId :=
  t.checked.globals.filter fun v ↦ t.checked.kind v = .linear && t.atLayer v

/-- The scope at a point, with or without globals. -/
def scope (t : Instrumenter) (point : Point) (globals : Bool) : List VarId :=
  t.localScope point ++ if globals then t.globalScope else []

end Instrumenter

end OwnershipFlow
