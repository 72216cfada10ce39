import ExprLang.Binary64.Shortest
import ExprLang.Tree

/-!
# Source Text of Trees

Expressions are written with parentheses around every operation, so that their text can be read
back without knowing how tightly the operators bind.
-/

namespace ExprLang

namespace Expr

mutual

def print : Expr → String
  | number value => toString value
  | var name => name
  | binary operator left right =>
    "(" ++ print left ++ " " ++ operator.symbol.toString ++ " " ++ print right ++ ")"
  | call callee arguments => callee ++ "(" ++ ", ".intercalate (printAll arguments) ++ ")"

def printAll : List Expr → List String
  | [] => []
  | x :: xs => print x :: printAll xs

end

end Expr

/-- The text of a block whose statements have the given texts. -/
def inBraces (statements : List String) : String :=
  "\x7b " ++ "; ".intercalate statements ++ " \x7d"

namespace Stmt

mutual

def print : Stmt → String
  | expression value => value.print
  | compound body => inBraces (printAll body)
  | assignment targets value => " = ".intercalate targets ++ " = " ++ value.print
  | result value => "return " ++ value.print
  | conditional condition body otherwise =>
    "if " ++ condition.print ++ " " ++ inBraces (printAll body) ++ printElse otherwise
  | loop index initial condition step body =>
    "for (" ++ index ++ " = " ++ initial.print ++ "; " ++ condition.print ++ "; " ++ step.print ++
      ") " ++ inBraces (printAll body)

def printAll : List Stmt → List String
  | [] => []
  | s :: ss => print s :: printAll ss

def printElse : ElseBranch → String
  | .absent => ""
  | .elseIf condition body otherwise =>
    " else if " ++ condition.print ++ " " ++ inBraces (printAll body) ++ printElse otherwise
  | .block body => " else " ++ inBraces (printAll body)

end

end Stmt

def Prototype.print (prototype : Prototype) : String :=
  prototype.name ++ "(" ++ ", ".intercalate prototype.parameters ++ ")"

def Definition.print (definition : Definition) : String :=
  "fn " ++ definition.prototype.print ++ " " ++ inBraces (Stmt.printAll definition.body)

/-- The declarations come before the definitions, each on a line of its own. -/
def SourceUnit.print (unit : SourceUnit) : String :=
  "\n".intercalate
    (unit.prototypes.map (fun prototype ↦ "extern " ++ prototype.print) ++
      unit.definitions.map Definition.print)

def Node.print : Node → String
  | expr x => x.print
  | stmt s => s.print
  | block ss => inBraces (Stmt.printAll ss)
  | prototype p => p.print
  | definition d => d.print
  | unit u => u.print

end ExprLang
