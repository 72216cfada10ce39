import ExprLang.Tree

/-!
# Copies of Trees

A copy is built anew from the parts of a tree.  A chain of conditions is first taken apart into the
list of its links and its last block and then put together again.
-/

namespace ExprLang

namespace Expr

mutual

def copy : Expr → Expr
  | number value => .number value
  | var name => .var name
  | binary operator left right => .binary operator (copy left) (copy right)
  | call callee arguments => .call callee (copyAll arguments)

def copyAll : List Expr → List Expr
  | [] => []
  | x :: xs => copy x :: copyAll xs

end

end Expr

namespace Stmt

mutual

def copy : Stmt → Stmt
  | expression value => .expression value.copy
  | compound body => .compound (copyAll body)
  | assignment targets value => .assignment targets value.copy
  | result value => .result value.copy
  | conditional condition body otherwise =>
    .ofLinks ⟨condition.copy, copyAll body⟩ (copyLinks otherwise) (copyLast otherwise)
  | loop index initial condition step body =>
    .loop index initial.copy condition.copy step.copy (copyAll body)

def copyAll : List Stmt → List Stmt
  | [] => []
  | s :: ss => copy s :: copyAll ss

def copyLinks : ElseBranch → List Link
  | .absent => []
  | .elseIf condition body otherwise => ⟨condition.copy, copyAll body⟩ :: copyLinks otherwise
  | .block _ => []

def copyLast : ElseBranch → Option Block
  | .absent => none
  | .elseIf _ _ otherwise => copyLast otherwise
  | .block body => some (copyAll body)

end

end Stmt

def Definition.copy (definition : Definition) : Definition :=
  ⟨definition.prototype, Stmt.copyAll definition.body⟩

def SourceUnit.copy (unit : SourceUnit) : SourceUnit :=
  ⟨unit.name, unit.prototypes, unit.definitions.map Definition.copy⟩

def Node.copy : Node → Node
  | expr x => .expr x.copy
  | stmt s => .stmt s.copy
  | block ss => .block (Stmt.copyAll ss)
  | prototype p => .prototype p
  | definition d => .definition d.copy
  | unit u => .unit u.copy

end ExprLang
