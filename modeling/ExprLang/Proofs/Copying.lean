import ExprLang.Proofs.Equality
import ExprLang.Tree.Copy
import ExprLang.Tree.Description
import ExprLang.Tree.Outline
import ExprLang.Tree.Printer
import ExprLang.Tree.Survey

/-!
# A Copy Is the Same Tree

A copy takes the chains of conditions apart and puts them together again, which gives the chains
that were there.  So no view tells a copy from its tree, but a copy equals its tree only if no
number in it is a NaN.
-/

namespace ExprLang

namespace Expr

mutual

theorem copy_eq : (expr : Expr) → expr.copy = expr
  | number _ => rfl
  | var _ => rfl
  | binary _ left right => by rw [copy, copy_eq left, copy_eq right]
  | call _ arguments => by rw [copy, copyAll_eq arguments]

theorem copyAll_eq : (exprs : List Expr) → copyAll exprs = exprs
  | [] => rfl
  | expr :: exprs => by rw [copyAll, copy_eq expr, copyAll_eq exprs]

end

end Expr

namespace Stmt

mutual

theorem copy_eq : (stmt : Stmt) → stmt.copy = stmt
  | expression value => by rw [copy, value.copy_eq]
  | compound body => by rw [copy, copyAll_eq body]
  | assignment _ value => by rw [copy, value.copy_eq]
  | result value => by rw [copy, value.copy_eq]
  | conditional condition body otherwise => by
    rw [copy, Stmt.ofLinks, copyElse_eq otherwise, condition.copy_eq, copyAll_eq body]
  | loop _ initial condition step body => by
    rw [copy, initial.copy_eq, condition.copy_eq, step.copy_eq, copyAll_eq body]

theorem copyAll_eq : (body : List Stmt) → copyAll body = body
  | [] => rfl
  | stmt :: body => by rw [copyAll, copy_eq stmt, copyAll_eq body]

/-- The copied links and the copied last block make the chain from which they were taken. -/
theorem copyElse_eq : (branch : ElseBranch) →
    ElseBranch.ofLinks (copyLinks branch) (copyLast branch) = branch
  | .absent => rfl
  | .elseIf condition body otherwise => by
    rw [copyLinks, copyLast, ElseBranch.ofLinks, condition.copy_eq, copyAll_eq body,
      copyElse_eq otherwise]
  | .block body => by rw [copyLinks, copyLast, ElseBranch.ofLinks, copyAll_eq body]

end

end Stmt

theorem Definition.copy_eq (definition : Definition) : definition.copy = definition := by
  rw [Definition.copy, Stmt.copyAll_eq]

theorem SourceUnit.copy_eq (unit : SourceUnit) : unit.copy = unit := by
  rw [SourceUnit.copy, List.map_congr_left fun definition _ ↦ definition.copy_eq, List.map_id']

theorem Node.copy_eq (node : Node) : node.copy = node := by
  cases node with
  | expr x => rw [copy, x.copy_eq]
  | stmt s => rw [copy, s.copy_eq]
  | block body => rw [copy, Stmt.copyAll_eq]
  | prototype p => rfl
  | definition d => rw [copy, d.copy_eq]
  | unit u => rw [copy, u.copy_eq]

namespace Stmt

/-- Every link is taken from a chain in its place. -/
theorem copyLinks_eq (branch : ElseBranch) : copyLinks branch = branch.links := by
  calc
    copyLinks branch = (ElseBranch.ofLinks (copyLinks branch) (copyLast branch)).links := by
      rw [ElseBranch.links_ofLinks]
    _ = branch.links := by rw [copyElse_eq]

theorem copyLast_eq (branch : ElseBranch) : copyLast branch = branch.last := by
  calc
    copyLast branch = (ElseBranch.ofLinks (copyLinks branch) (copyLast branch)).last := by
      rw [ElseBranch.last_ofLinks]
    _ = branch.last := by rw [copyElse_eq]

end Stmt

/-- A copy is the same tree, down to the links and the last block of every chain.  It looks the same
in every view, and it equals the tree exactly if there is no NaN in it. -/
theorem Node.copy_same_tree (node : Node) :
    node.copy = node ∧
    (∀ branch : ElseBranch,
      Stmt.copyLinks branch = branch.links ∧ Stmt.copyLast branch = branch.last) ∧
    node.copy.dump = node.dump ∧ node.copy.describe.text = node.describe.text ∧
    node.copy.print = node.print ∧ node.copy.survey = node.survey ∧
    ((node.copy == node) = true ↔ ∀ value ∈ node.numbers, value.isNaN = false) := by
  rw [copy_eq]
  exact ⟨rfl, fun branch ↦ ⟨Stmt.copyLinks_eq branch, Stmt.copyLast_eq branch⟩, rfl, rfl, rfl, rfl,
    node.beq_self_iff⟩

end ExprLang
