import ExprLang.Tree.Equality
import Mathlib.Data.List.Basic

/-!
# Trees That Equal Themselves

Equality asks the same of a tree and itself everywhere but at its numbers, so a tree equals itself
exactly when every number in it does.
-/

namespace ExprLang

namespace Expr

mutual

def numbers : Expr → List Binary64
  | number value => [value]
  | var _ => []
  | binary _ left right => numbers left ++ numbers right
  | call _ arguments => numbersOfAll arguments

def numbersOfAll : List Expr → List Binary64
  | [] => []
  | expr :: exprs => numbers expr ++ numbersOfAll exprs

end

end Expr

namespace Stmt

mutual

def numbers : Stmt → List Binary64
  | expression value => value.numbers
  | compound body => numbersOfAll body
  | assignment _ value => value.numbers
  | result value => value.numbers
  | conditional condition body otherwise =>
    condition.numbers ++ (numbersOfAll body ++ numbersOfElse otherwise)
  | loop _ initial condition step body =>
    initial.numbers ++ (condition.numbers ++ (step.numbers ++ numbersOfAll body))

def numbersOfAll : List Stmt → List Binary64
  | [] => []
  | stmt :: body => numbers stmt ++ numbersOfAll body

def numbersOfElse : ElseBranch → List Binary64
  | .absent => []
  | .elseIf condition body otherwise =>
    condition.numbers ++ (numbersOfAll body ++ numbersOfElse otherwise)
  | .block body => numbersOfAll body

end

end Stmt

theorem Expr.numbersOfAll_eq (exprs : List Expr) :
    numbersOfAll exprs = exprs.flatMap numbers := by
  induction exprs with
  | nil => rfl
  | cons expr exprs ih => rw [numbersOfAll, ih, List.flatMap_cons]

theorem Stmt.numbersOfAll_eq (body : List Stmt) : numbersOfAll body = body.flatMap numbers := by
  induction body with
  | nil => rfl
  | cons stmt body ih => rw [numbersOfAll, ih, List.flatMap_cons]

def SourceUnit.numbers (unit : SourceUnit) : List Binary64 :=
  unit.definitions.flatMap fun definition ↦ Stmt.numbersOfAll definition.body

/-- The numbers of a node, from first to last. -/
def Node.numbers : Node → List Binary64
  | expr x => x.numbers
  | stmt s => s.numbers
  | block body => Stmt.numbersOfAll body
  | prototype _ => []
  | definition d => Stmt.numbersOfAll d.body
  | unit u => u.numbers

namespace Expr

mutual

theorem beq_self_iff : (expr : Expr) →
    (beq expr expr ↔ ∀ value ∈ expr.numbers, value.isNaN = false)
  | number value => by simp [beq, numbers, Binary64.beq_self_iff]
  | var name => by simp [beq, numbers]
  | binary operator left right => by
    simp [beq, numbers, beq_self_iff left, beq_self_iff right, or_imp, forall_and]
  | call callee arguments => by simp [beq, numbers, beqAll_self_iff arguments]

theorem beqAll_self_iff : (exprs : List Expr) →
    (beqAll exprs exprs ↔ ∀ value ∈ numbersOfAll exprs, value.isNaN = false)
  | [] => by simp [beqAll, numbersOfAll]
  | expr :: exprs => by
    simp [beqAll, numbersOfAll, beq_self_iff expr, beqAll_self_iff exprs, or_imp, forall_and]

end

end Expr

namespace Stmt

mutual

theorem beq_self_iff : (stmt : Stmt) →
    (beq stmt stmt ↔ ∀ value ∈ stmt.numbers, value.isNaN = false)
  | expression value => by simp [beq, numbers, value.beq_self_iff]
  | compound body => by simp [beq, numbers, beqAll_self_iff body]
  | assignment targets value => by simp [beq, numbers, value.beq_self_iff]
  | result value => by simp [beq, numbers, value.beq_self_iff]
  | conditional condition body otherwise => by
    simp [beq, numbers, condition.beq_self_iff, beqAll_self_iff body, beqBranch_self_iff otherwise,
      or_imp, forall_and, and_assoc]
  | loop index initial condition step body => by
    simp [beq, numbers, initial.beq_self_iff, condition.beq_self_iff, step.beq_self_iff,
      beqAll_self_iff body, or_imp, forall_and, and_assoc]

theorem beqAll_self_iff : (body : List Stmt) →
    (beqAll body body ↔ ∀ value ∈ numbersOfAll body, value.isNaN = false)
  | [] => by simp [beqAll, numbersOfAll]
  | stmt :: body => by
    simp [beqAll, numbersOfAll, beq_self_iff stmt, beqAll_self_iff body, or_imp, forall_and]

theorem beqBranch_self_iff : (branch : ElseBranch) →
    (beqBranch branch branch ↔ ∀ value ∈ numbersOfElse branch, value.isNaN = false)
  | .absent => by simp [beqBranch, numbersOfElse]
  | .elseIf condition body otherwise => by
    simp [beqBranch, numbersOfElse, condition.beq_self_iff, beqAll_self_iff body,
      beqBranch_self_iff otherwise, or_imp, forall_and, and_assoc]
  | .block body => by simp [beqBranch, numbersOfElse, beqAll_self_iff body]

end

theorem beqAll_eq : (body other : List Stmt) → beqAll body other = (body == other)
  | [], [] => rfl
  | [], _ :: _ => rfl
  | _ :: _, [] => rfl
  | stmt :: body, stmt' :: other => congrArg (beq stmt stmt' && ·) (beqAll_eq body other)

end Stmt

theorem Definition.beq_self_iff (definition : Definition) : (definition == definition) = true ↔
    ∀ value ∈ Stmt.numbersOfAll definition.body, value.isNaN = false := by
  change (decide _ && (definition.body == definition.body)) = true ↔ _
  rw [← Stmt.beqAll_eq, decide_eq_true rfl, Bool.true_and, Stmt.beqAll_self_iff]

theorem list_beq_self_iff {α : Type} [BEq α] (as : List α) :
    (as == as) = true ↔ ∀ a ∈ as, (a == a) = true := by
  induction as with
  | nil => simp
  | cons a as ih => simp [ih]

theorem SourceUnit.beq_self_iff (unit : SourceUnit) :
    (unit == unit) = true ↔ ∀ value ∈ unit.numbers, value.isNaN = false := by
  change (unit.name == unit.name && decide _ && (unit.definitions == unit.definitions)) = true ↔ _
  rw [beq_self_eq_true, decide_eq_true rfl, Bool.true_and, Bool.true_and, list_beq_self_iff,
    numbers, List.forall_mem_flatMap]
  simp only [Definition.beq_self_iff]

theorem Node.beq_self_iff (node : Node) :
    (node == node) = true ↔ ∀ value ∈ node.numbers, value.isNaN = false := by
  cases node with
  | expr x => exact x.beq_self_iff
  | stmt s => exact s.beq_self_iff
  | block body =>
    change (body == body) = true ↔ _
    rw [← Stmt.beqAll_eq, Stmt.beqAll_self_iff, numbers]
  | prototype p => exact iff_of_true (decide_eq_true rfl) (List.forall_mem_nil _)
  | definition d => exact d.beq_self_iff
  | unit u => exact u.beq_self_iff

end ExprLang
