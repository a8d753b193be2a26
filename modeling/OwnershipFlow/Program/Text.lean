import OwnershipFlow.Program

/-!
# The text of expressions and commands

Expressions and commands are written with the names of variables and procedures in place of their
numbers. A variable that is not declared is written `v` and its number, a procedure that is not
declared `proc` and its number. Names are written as they are, without quoting.
-/

set_option autoImplicit false
set_option relaxedAutoImplicit false

namespace OwnershipFlow.Program

/-- The text of a variable: its name, or `v` and its number. -/
def varText (p : Program) (id : VarId) : String :=
  (p.var? id).elim ("v" ++ toString id.index) Variable.name

/-- The text of a procedure: its name, or `proc` and its number. -/
def procedureText (p : Program) (id : ProcId) : String :=
  p.procedures[id]?.elim ("proc" ++ toString id.index) Procedure.name

/-- The text of a list of variables. -/
def varsText (p : Program) (ids : List VarId) : String :=
  ", ".intercalate (ids.map p.varText)

mutual

/-- The text of an expression. -/
def exprText (p : Program) : Expr → String
  | .lit value => if value then "true" else "false"
  | .var id => p.varText id
  | .app func args => func ++ "(" ++ ", ".intercalate (exprTexts p args) ++ ")"
  | .not inner => "!(" ++ exprText p inner ++ ")"
  | .and parts => "(" ++ " && ".intercalate (exprTexts p parts) ++ ")"

/-- The texts of a list of expressions. -/
def exprTexts (p : Program) : List Expr → List String
  | [] => []
  | e :: rest => exprText p e :: exprTexts p rest

end

/-- The text of an invocation. Receivers are written in front, if there are any. -/
def callText (p : Program) (call : Call) : String :=
  (if call.outs.isEmpty then "" else p.varsText call.outs ++ " := ") ++
    p.procedureText call.callee ++ "(" ++ ", ".intercalate (p.exprTexts call.args) ++ ")"

/-- The text of an action. -/
def actionText (p : Program) : Action → String
  | .assume condition => "assume " ++ p.exprText condition
  | .assert condition => "assert " ++ p.exprText condition
  | .assign targets values =>
    p.varsText targets ++ " := " ++ ", ".intercalate (p.exprTexts values)
  | .havoc targets => "havoc " ++ p.varsText targets
  | .call call => "call " ++ p.callText call
  | .parCall arms => "par " ++ " | ".intercalate (arms.map p.callText)

/-- The text of a command. -/
def commandText (p : Program) (c : Command) : String :=
  p.actionText c.action

end OwnershipFlow.Program
