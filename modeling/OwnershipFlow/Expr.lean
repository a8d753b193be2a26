import OwnershipFlow.Ident

/-!
# Boolean expressions

Expressions are built from literals, variables, applications of named functions, negation and
conjunction. A conjunction holds a list, which may be empty or a single part. `Expr.conj` builds a
conjunction that collapses those two cases: no part is the literal `true`, one part is that part.

The functions that walk an expression come in pairs, one for an expression and one for a list of
expressions. Equality is decidable (`Expr.beq_iff_eq`), and the variables of an expression form a
finite set (`Expr.freeVars`), a list of expressions having the union of the sets of its members
(`Expr.mem_freeVarsOfList`).
-/

set_option autoImplicit false
set_option relaxedAutoImplicit false

namespace OwnershipFlow

/-- A boolean expression over program variables. -/
inductive Expr
  | lit (value : Bool)
  | var (id : VarId)
  | app (func : String) (args : List Expr)
  | not (inner : Expr)
  | and (parts : List Expr)
  deriving Repr

namespace Expr

instance : Inhabited Expr := ⟨lit true⟩

/-! ### Equality -/

mutual

/-- Whether two expressions are the same. -/
def beq : Expr → Expr → Bool
  | lit a, lit b => a == b
  | var a, var b => a == b
  | app f as, app g bs => f == g && beqList as bs
  | not a, not b => beq a b
  | and as, and bs => beqList as bs
  | _, _ => false

/-- Whether two lists of expressions are the same. -/
def beqList : List Expr → List Expr → Bool
  | [], [] => true
  | a :: as, b :: bs => beq a b && beqList as bs
  | _, _ => false

end

mutual

theorem beq_iff_eq : ∀ a b : Expr, beq a b = true ↔ a = b
  | lit a, b => by cases b <;> simp [beq]
  | var a, b => by cases b <;> simp [beq]
  | app f as, b => by
    cases b with
    | app g bs => simp [beq, beqList_iff_eq as bs]
    | _ => simp [beq]
  | not a, b => by
    cases b with
    | not b => simp [beq, beq_iff_eq a b]
    | _ => simp [beq]
  | and as, b => by
    cases b with
    | and bs => simp [beq, beqList_iff_eq as bs]
    | _ => simp [beq]

theorem beqList_iff_eq : ∀ as bs : List Expr, beqList as bs = true ↔ as = bs
  | [], bs => by cases bs <;> simp [beqList]
  | a :: as, bs => by
    cases bs with
    | nil => simp [beqList]
    | cons b bs => simp [beqList, beq_iff_eq a b, beqList_iff_eq as bs]

end

instance : DecidableEq Expr := fun a b ↦ decidable_of_iff _ (beq_iff_eq a b)

/-! ### Construction -/

/-- Whether the expression is the literal `true`. A conjunction without parts is not. -/
def isTrue : Expr → Bool
  | lit value => value
  | _ => false

/-- The conjunction of the given parts, without a conjunction node where fewer than two parts are
given. -/
def conj : List Expr → Expr
  | [] => lit true
  | [part] => part
  | parts => and parts

@[simp] theorem conj_nil : conj [] = lit true := rfl

@[simp] theorem conj_singleton (part : Expr) : conj [part] = part := rfl

@[simp] theorem conj_cons_cons (a b : Expr) (rest : List Expr) :
    conj (a :: b :: rest) = and (a :: b :: rest) := rfl

theorem conj_eq_and {parts : List Expr} (h : 2 ≤ parts.length) : conj parts = and parts := by
  match parts, h with
  | _ :: _ :: _, _ => rfl

/-! ### Variables -/

mutual

/-- The variables that occur in an expression. -/
def freeVars : Expr → VarSet
  | lit _ => ∅
  | var id => {id}
  | app _ args => freeVarsOfList args
  | not inner => freeVars inner
  | and parts => freeVarsOfList parts

/-- The variables that occur in some expression of a list. -/
def freeVarsOfList : List Expr → VarSet
  | [] => ∅
  | e :: rest => freeVars e ∪ freeVarsOfList rest

end

theorem mem_freeVarsOfList {v : VarId} {es : List Expr} :
    v ∈ freeVarsOfList es ↔ ∃ e ∈ es, v ∈ freeVars e := by
  induction es with
  | nil => simp [freeVarsOfList]
  | cons e rest ih => simp [freeVarsOfList, ih]

/-- The variable that an expression consists of, if it is a bare variable. -/
def bareVar? : Expr → Option VarId
  | var id => some id
  | _ => none

theorem bareVar?_eq_some_iff {e : Expr} {v : VarId} : e.bareVar? = some v ↔ e = var v := by
  cases e <;> simp [bareVar?]

end Expr

end OwnershipFlow
