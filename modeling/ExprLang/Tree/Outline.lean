import ExprLang.Binary64.Shortest
import ExprLang.Tree

/-!
# Outlines of Trees

An outline has one labelled entry for every node of a tree.  It is listed with one line for each
entry, indented by its depth, an entry before its parts.  A walk yields the same lines one at a time
and keeps the entries that are still to come on a stack.
-/

namespace ExprLang

/-- What the outline says about one node. -/
inductive Label where
  | unit (name : String)
  | prototype (name : String) (parameters : List String)
  | definition
  | compound
  | conditional (hasElse : Bool)
  | assignment
  | result
  | loop (index : String)
  | number (value : Binary64)
  | var (name : String)
  | binary (operator : BinaryOperator)
  | call (callee : String)
deriving DecidableEq

def Label.text : Label → String
  | unit name => "TranslationUnit: '" ++ name ++ "'"
  | prototype name parameters =>
    "PrototypeDecl: " ++ name ++ "(" ++ ", ".intercalate parameters ++ ")"
  | definition => "FunctionDecl:"
  | compound => "CompoundStmt:"
  | conditional hasElse => if hasElse then "IfStmt: has_else" else "IfStmt:"
  | assignment => "AssignStmt:"
  | result => "ReturnStmt:"
  | loop index => "ForStmt: " ++ index
  | number value => "NumberExpr: " ++ toString value
  | var name => "VariableExpr: '" ++ name ++ "'"
  | binary operator => "BinaryExpr: op = '" ++ operator.symbol.toString ++ "'"
  | call callee => "CallExpr: " ++ callee

/-- The line of an entry at a depth.  The entry of a unit has no bullet. -/
def Label.line (depth : Nat) : Label → String
  | unit name => (unit name).text
  | label => String.ofList (List.replicate (2 * depth) ' ') ++ "- " ++ label.text

inductive Outline where
  | entry (label : Label) (parts : List Outline)

namespace Outline

def label : Outline → Label
  | entry label _ => label

def parts : Outline → List Outline
  | entry _ parts => parts

mutual

/-- The lines of an outline whose first entry has the given depth. -/
def lines (depth : Nat) : Outline → List String
  | entry label parts => label.line depth :: linesAll (depth + 1) parts

def linesAll (depth : Nat) : List Outline → List String
  | [] => []
  | outline :: rest => lines depth outline ++ linesAll depth rest

end

mutual

/-- The number of entries. -/
def size : Outline → Nat
  | entry _ parts => sizeAll parts + 1

def sizeAll : List Outline → Nat
  | [] => 0
  | outline :: rest => size outline + sizeAll rest

end

end Outline

namespace Expr

mutual

def outline : Expr → Outline
  | number value => .entry (.number value) []
  | var name => .entry (.var name) []
  | binary operator left right => .entry (.binary operator) [outline left, outline right]
  | call callee arguments => .entry (.call callee) (outlineAll arguments)

def outlineAll : List Expr → List Outline
  | [] => []
  | x :: xs => outline x :: outlineAll xs

end

end Expr

namespace Stmt

mutual

/-- An expression statement has the outline of its expression. -/
def outline : Stmt → Outline
  | expression value => value.outline
  | compound body => .entry .compound (outlineAll body)
  | assignment targets value =>
    .entry .assignment (targets.map (fun name ↦ .entry (.var name) []) ++ [value.outline])
  | result value => .entry .result [value.outline]
  | conditional condition body otherwise =>
    .entry (.conditional otherwise.isPresent)
      (condition.outline :: .entry .compound (outlineAll body) :: outlineElse otherwise)
  | loop index initial condition step body =>
    .entry (.loop index)
      [initial.outline, condition.outline, step.outline, .entry .compound (outlineAll body)]

def outlineAll : List Stmt → List Outline
  | [] => []
  | s :: ss => outline s :: outlineAll ss

/-- The entry of an else branch, if there is one.  The next link of a chain has an entry like that
of a conditional statement. -/
def outlineElse : ElseBranch → List Outline
  | .absent => []
  | .elseIf condition body otherwise =>
    [.entry (.conditional otherwise.isPresent)
      (condition.outline :: .entry .compound (outlineAll body) :: outlineElse otherwise)]
  | .block body => [.entry .compound (outlineAll body)]

end

end Stmt

def blockOutline (block : Block) : Outline := .entry .compound (Stmt.outlineAll block)

def Prototype.outline (prototype : Prototype) : Outline :=
  .entry (.prototype prototype.name prototype.parameters) []

def Definition.outline (definition : Definition) : Outline :=
  .entry .definition [definition.prototype.outline, blockOutline definition.body]

def SourceUnit.outline (unit : SourceUnit) : Outline :=
  .entry (.unit unit.name)
    (unit.prototypes.map Prototype.outline ++ unit.definitions.map Definition.outline)

def Node.outline : Node → Outline
  | expr x => x.outline
  | stmt s => s.outline
  | block ss => blockOutline ss
  | prototype p => p.outline
  | definition d => d.outline
  | unit u => u.outline

/-- A walk through an outline: the parts that are still to come, each with its depth. -/
structure Walk where
  pending : List (Nat × Outline)

namespace Walk

def start (outline : Outline) : Walk := ⟨[(0, outline)]⟩

/-- The next line and the walk after it. -/
def next? (walk : Walk) : Option (String × Walk) :=
  match walk.pending with
  | [] => none
  | (depth, outline) :: rest =>
    let parts := outline.parts.map fun part ↦ (depth + 1, part)
    some (outline.label.line depth, ⟨parts ++ rest⟩)

/-- At most the given number of lines, one after the other. -/
def take : Nat → Walk → List String
  | 0, _ => []
  | n + 1, walk =>
    match walk.next? with
    | none => []
    | some (line, walk) => line :: take n walk

/-- The number of lines to come. -/
def size (walk : Walk) : Nat := Outline.sizeAll (walk.pending.map Prod.snd)

/-- All lines to come. -/
def rest (walk : Walk) : List String := walk.take walk.size

/-- A walk that is over. -/
def exhausted : Walk := ⟨[]⟩

end Walk

/-- The walk from the start of the outline of a node. -/
def Node.walk (node : Node) : Walk := .start node.outline

/-- The listing of a node. -/
def Node.dump (node : Node) : List String := node.walk.rest

end ExprLang
