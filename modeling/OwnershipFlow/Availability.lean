import OwnershipFlow.FlowGraph
import OwnershipFlow.Program

/-!
# Availability of linear variables

A forward analysis of the local variables of linear kind that hold ownership at each point of an
implementation. A variable becomes available when it is assigned or receives the result of a call;
parameters that are owned at entry are available from the start. It stops being available when its
value is moved into another variable, when it is passed to a parameter that is owned at entry, or
when it is havocked. Where ways of control join, only what is available along all of them is.

Every action has the same form of effect: some variables are lost, then others are gained
(`Effect.act`). The arms of a parallel call lose together before any of them gains, so the order of
the arms does not matter.

The sets held at the ends of blocks are found by iteration over the reverse postorder. A block whose
end has not been reached yet puts no bound on its successors. The first pass reaches every block of
the order and each later change makes a set smaller, which bounds the number of passes.
-/

set_option autoImplicit false
set_option relaxedAutoImplicit false

namespace OwnershipFlow

/-! ### Effects -/

/-- What an action does to the variables held. -/
structure Effect where
  lost : VarSet
  gained : VarSet
  deriving DecidableEq

namespace Effect

/-- What is held after an action: what was held and not lost, and what was gained. -/
def act (e : Effect) (held : VarSet) : VarSet :=
  (held \ e.lost) ∪ e.gained

theorem mem_act {e : Effect} {held : VarSet} {v : VarId} :
    v ∈ e.act held ↔ (v ∈ held ∧ v ∉ e.lost) ∨ v ∈ e.gained := by
  simp [act]

/-- The action that changes nothing. -/
def idle : Effect := ⟨∅, ∅⟩

end Effect

namespace Program

/-- The variables whose availability is tracked among those given. -/
def tracked (p : Program) (vars : List VarId) : VarSet :=
  .ofList (vars.filter p.isTracked)

/-- The bare variables passed to parameters that are owned at entry. A call of an undeclared
procedure passes none, and neither does an argument without a parameter. -/
def passed (p : Program) (call : Call) : List VarId :=
  match p.procedures[call.callee]? with
  | none => []
  | some callee => (call.args.zip callee.ins).filterMap fun (arg, formal) ↦
      if (p.kind formal).ownedAtEntry then arg.bareVar? else none

/-- The effect of an action. Only a bare variable moves: an assignment from a compound expression
loses nothing. -/
def effect (p : Program) : Action → Effect
  | .assume _ | .assert _ => .idle
  | .assign targets values => ⟨.ofList (values.filterMap Expr.bareVar?), p.tracked targets⟩
  | .havoc targets => ⟨.ofList targets, ∅⟩
  | .call call => ⟨.ofList (p.passed call), p.tracked call.outs⟩
  | .parCall arms => ⟨.ofList (arms.flatMap p.passed), p.tracked (arms.flatMap Call.outs)⟩

/-- What is held after a command. -/
def transfer (p : Program) (held : VarSet) (c : Command) : VarSet :=
  (p.effect c.action).act held

/-- What is held after a run of commands. -/
def transferAll (p : Program) (commands : List Command) (held : VarSet) : VarSet :=
  commands.foldl p.transfer held

/-- The parameters that are available at the start of an implementation. -/
def heldAtEntry (p : Program) (imp : Implementation) : VarSet :=
  .ofList (imp.ins.filter fun v ↦ p.isTracked v && (p.kind v).ownedAtEntry)

end Program

/-! ### Joins and passes -/

namespace Availability

/-- What is held at the end of each block that has been reached. -/
abbrev Outs := Std.ExtTreeMap BlockId VarSet

/-- What is held where one more way of control joins, if any has been reached before. -/
def join (held? : Option VarSet) (out : VarSet) : Option VarSet :=
  some (held?.elim out (· ∩ out))

/-- What is held at the start of a block: what all reached predecessors hold at their end, the entry
also being reached from outside. -/
def heldAtStart? (g : FlowGraph) (entrySet : VarSet) (outs : Outs) (b : BlockId) : Option VarSet :=
  (g.prior b).foldl (fun held? u ↦ outs[u]?.elim held? (join held?))
    (if b = g.entry then some entrySet else none)

/-- Computes what is held at the end of a block anew, if its start has been reached. -/
def revise (p : Program) (imp : Implementation) (g : FlowGraph) (outs : Outs) (b : BlockId) :
    Outs :=
  match imp.block? b, heldAtStart? g (p.heldAtEntry imp) outs b with
  | some block, some held => outs.insert b (p.transferAll block.commands held)
  | _, _ => outs

/-- Revises every reachable block in reverse postorder. -/
def pass (p : Program) (imp : Implementation) (g : FlowGraph) (outs : Outs) : Outs :=
  g.rpo.foldl (revise p imp g) outs

/-- A number of passes after which nothing changes: each block is reached once, and loses each
variable at most once. -/
def rounds (p : Program) (g : FlowGraph) : Nat :=
  g.rpo.length * (p.vars.length + 1) + 1

/-- What is held at the end of every reachable block. -/
def outs (p : Program) (imp : Implementation) (g : FlowGraph) : Outs :=
  untilStable (pass p imp g) (rounds p g) ∅

/-- What is held after each command of a run. -/
def commandEntries (p : Program) : VarSet → List Command → List (Node × VarSet)
  | _, [] => []
  | held, c :: rest =>
    (.command c.id, p.transfer held c) :: commandEntries p (p.transfer held c) rest

/-- What is held at the start of a block and after each of its commands. -/
def blockEntries (p : Program) (imp : Implementation) (g : FlowGraph) (outs : Outs) (b : BlockId) :
    List (Node × VarSet) :=
  match imp.block? b, heldAtStart? g (p.heldAtEntry imp) outs b with
  | some block, some held => (.block b, held) :: commandEntries p held block.commands
  | _, _ => []

/-- Sets of variables by the point at which they are held. -/
abbrev Table := Std.ExtTreeMap Node VarSet

/-- The table over a given flow graph. Where points share an identifier, the last of them in reverse
postorder counts. -/
def tableOver (p : Program) (imp : Implementation) (g : FlowGraph) : Table :=
  .ofList (g.rpo.flatMap (blockEntries p imp g (outs p imp g)))

end Availability

/-- The variables that are available at the start of every reachable block of an implementation and
after each of its commands. -/
def Program.availability (p : Program) (imp : Implementation) : Availability.Table :=
  (FlowGraph.of? imp).elim ∅ (Availability.tableOver p imp)

end OwnershipFlow
