import ExprLang.Binary64.Shortest
import ExprLang.Text
import ExprLang.Tree

/-!
# Descriptions of Trees

A description spells out how a tree is built, with the name of every construction and of every part.
The links of a chain of conditions are described as one list, and the block after them apart from
it.
-/

namespace ExprLang

/-- A structured text. -/
inductive Description where
  | atom (text : String)
  /-- Parts with commas between them and a text on either side. -/
  | group (before : String) (parts : List Description) (after : String)
  /-- A part with its name before it. -/
  | named (name : String) (part : Description)

namespace Description

mutual

def text : Description → String
  | atom text => text
  | group before parts after => before ++ ", ".intercalate (textAll parts) ++ after
  | named name part => name ++ ": " ++ text part

def textAll : List Description → List String
  | [] => []
  | d :: ds => text d :: textAll ds

end

def string (text : String) : Description := .atom (Text.quoted text)

def list (parts : List Description) : Description := .group "[" parts "]"

/-- A construction with named parts. -/
def record (name : String) (parts : List (String × Description)) : Description :=
  .group (name ++ " \x7b ") (parts.map fun part ↦ .named part.1 part.2) " \x7d"

/-- A choice among several constructions. -/
def choice (name : String) (content : Description) : Description :=
  .group (name ++ "(") [content] ")"

end Description

open Description

namespace Expr

mutual

def describe : Expr → Description
  | number value => choice "Number" (record "NumberExpr" [("value", .atom value.taggedText)])
  | var name => choice "Variable" (record "VariableExpr" [("name", string name)])
  | binary operator left right =>
    choice "Binary" (record "BinaryExpr"
      [("operator", .atom operator.name), ("left", describe left), ("right", describe right)])
  | call callee arguments =>
    choice "Call" (record "CallExpr"
      [("callee", string callee), ("args", list (describeAll arguments))])

def describeAll : List Expr → List Description
  | [] => []
  | x :: xs => describe x :: describeAll xs

end

end Expr

/-- The description of a block whose statements have the given descriptions. -/
def describeBlock (statements : List Description) : Description :=
  record "CompoundStmt" [("statements", list statements)]

/-- The description of one link of a chain. -/
def describeLink (condition body : Description) : Description :=
  record "Link" [("condition", condition), ("body", body)]

namespace Stmt

mutual

def describe : Stmt → Description
  | expression value => choice "Expression" value.describe
  | compound body => choice "Compound" (describeBlock (describeAll body))
  | assignment targets value =>
    choice "Assign" (record "AssignStmt"
      [("targets", list (targets.map fun name ↦ record "VariableExpr" [("name", string name)])),
        ("value", value.describe)])
  | result value => choice "Return" (record "ReturnStmt" [("value", value.describe)])
  | conditional condition body otherwise =>
    choice "If" (record "IfStmt"
      [("links", list (describeLink condition.describe (describeBlock (describeAll body)) ::
          describeLinks otherwise)),
        ("else", describeLast otherwise)])
  | loop index initial condition step body =>
    choice "For" (record "ForStmt"
      [("variable", string index), ("initial", initial.describe),
        ("condition", condition.describe), ("step", step.describe),
        ("body", describeBlock (describeAll body))])

def describeAll : List Stmt → List Description
  | [] => []
  | s :: ss => describe s :: describeAll ss

def describeLinks : ElseBranch → List Description
  | .absent => []
  | .elseIf condition body otherwise =>
    describeLink condition.describe (describeBlock (describeAll body)) :: describeLinks otherwise
  | .block _ => []

def describeLast : ElseBranch → Description
  | .absent => .atom "None"
  | .elseIf _ _ otherwise => describeLast otherwise
  | .block body => choice "Else" (describeBlock (describeAll body))

end

end Stmt

def Prototype.describe (prototype : Prototype) : Description :=
  record "PrototypeDecl"
    [("name", string prototype.name), ("parameters", list (prototype.parameters.map string))]

def Definition.describe (definition : Definition) : Description :=
  record "FunctionDecl"
    [("prototype", definition.prototype.describe),
      ("body", describeBlock (Stmt.describeAll definition.body))]

def SourceUnit.describe (unit : SourceUnit) : Description :=
  record "TranslationUnit"
    [("name", string unit.name), ("prototypes", list (unit.prototypes.map Prototype.describe)),
      ("functions", list (unit.definitions.map Definition.describe))]

def Node.describe : Node → Description
  | expr x => x.describe
  | stmt s => s.describe
  | block ss => describeBlock (Stmt.describeAll ss)
  | prototype p => p.describe
  | definition d => d.describe
  | unit u => u.describe

end ExprLang
