import ExprLang.Tree

/-!
# Surveys of Trees

A survey collects what has to be known before code is generated: the functions that are called, each
call before the calls among its arguments, and the functions whose body does not end in a result.
-/

namespace ExprLang

namespace Expr

mutual

def callees : Expr → List String
  | number _ | var _ => []
  | binary _ left right => callees left ++ callees right
  | call callee arguments => callee :: calleesAll arguments

def calleesAll : List Expr → List String
  | [] => []
  | x :: xs => callees x ++ calleesAll xs

end

end Expr

namespace Stmt

mutual

def callees : Stmt → List String
  | expression value | assignment _ value | result value => value.callees
  | compound body => calleesAll body
  | conditional condition body otherwise =>
    condition.callees ++ calleesAll body ++ calleesElse otherwise
  | loop _ initial condition step body =>
    initial.callees ++ condition.callees ++ step.callees ++ calleesAll body

def calleesAll : List Stmt → List String
  | [] => []
  | s :: ss => callees s ++ calleesAll ss

def calleesElse : ElseBranch → List String
  | .absent => []
  | .elseIf condition body otherwise =>
    condition.callees ++ calleesAll body ++ calleesElse otherwise
  | .block body => calleesAll body

end

end Stmt

structure Survey where
  callees : List String
  /-- The functions whose last statement is no `return`. -/
  implicitReturns : List String
deriving DecidableEq

namespace Survey

def empty : Survey := ⟨[], []⟩

def append (first second : Survey) : Survey :=
  ⟨first.callees ++ second.callees, first.implicitReturns ++ second.implicitReturns⟩

end Survey

/-- The last statement of a block, if there is one, is a result. -/
def endsInResult (block : Block) : Bool := block.getLast?.any Stmt.isResult

def Definition.survey (definition : Definition) : Survey :=
  ⟨Stmt.calleesAll definition.body,
    if endsInResult definition.body then [] else [definition.prototype.name]⟩

def SourceUnit.survey (unit : SourceUnit) : Survey :=
  unit.definitions.foldr (fun definition rest ↦ definition.survey.append rest) .empty

def Node.survey : Node → Survey
  | expr x => ⟨x.callees, []⟩
  | stmt s => ⟨s.callees, []⟩
  | block ss => ⟨Stmt.calleesAll ss, []⟩
  | prototype _ => .empty
  | definition d => d.survey
  | unit u => u.survey

end ExprLang
