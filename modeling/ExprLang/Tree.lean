import ExprLang.Binary64

/-!
# The Tree of a Program

Expressions, statements and declarations as the parser builds them.  A statement list is a block.
The links of an `else if` chain follow one another as else branches, and `ElseBranch.ofLinks` builds
a chain from its list of links.
-/

namespace ExprLang

inductive BinaryOperator where
  | less
  | greater
  | add
  | subtract
  | multiply
  | divide
deriving DecidableEq, Repr

namespace BinaryOperator

def symbol : BinaryOperator → Char
  | less => '<'
  | greater => '>'
  | add => '+'
  | subtract => '-'
  | multiply => '*'
  | divide => '/'

def name : BinaryOperator → String
  | less => "Less"
  | greater => "Greater"
  | add => "Add"
  | subtract => "Subtract"
  | multiply => "Multiply"
  | divide => "Divide"

def all : List BinaryOperator := [less, greater, add, subtract, multiply, divide]

def ofChar? (c : Char) : Option BinaryOperator := all.find? fun operator ↦ operator.symbol = c

@[simp]
theorem ofChar?_symbol (operator : BinaryOperator) : ofChar? operator.symbol = some operator := by
  cases operator <;> rfl

theorem ofChar?_eq_some_iff {c : Char} {operator : BinaryOperator} :
    ofChar? c = some operator ↔ operator.symbol = c := by
  constructor
  · intro h
    simpa using List.find?_some h
  · rintro rfl
    exact ofChar?_symbol operator

theorem symbol_injective : Function.Injective symbol := by
  intro operator operator' h
  have hread := congrArg ofChar? h
  simpa using hread

end BinaryOperator

inductive Expr where
  | number (value : Binary64)
  | var (name : String)
  | binary (operator : BinaryOperator) (left right : Expr)
  | call (callee : String) (arguments : List Expr)

mutual

inductive Stmt where
  /-- An expression that stands as a statement. -/
  | expression (value : Expr)
  | compound (body : List Stmt)
  /-- Every target receives the same value. -/
  | assignment (targets : List String) (value : Expr)
  | result (value : Expr)
  | conditional (condition : Expr) (body : List Stmt) (otherwise : ElseBranch)
  | loop (index : String) (initial condition step : Expr) (body : List Stmt)

/-- What follows the body of an `if`: nothing, the next link of a chain, or the last block. -/
inductive ElseBranch where
  | absent
  | elseIf (condition : Expr) (body : List Stmt) (otherwise : ElseBranch)
  | block (body : List Stmt)

end

/-- A list of statements between braces, or a run of statements outside every definition. -/
abbrev Block := List Stmt

/-- The head of a function: its name and the names of its parameters. -/
structure Prototype where
  name : String
  parameters : List String
deriving DecidableEq

structure Definition where
  prototype : Prototype
  body : Block

/-- Everything that one source declares and defines. -/
structure SourceUnit where
  name : String
  prototypes : List Prototype
  definitions : List Definition

/-- The first definition of a name. -/
def SourceUnit.definition? (unit : SourceUnit) (name : String) : Option Definition :=
  unit.definitions.find? fun definition ↦ definition.prototype.name = name

namespace Stmt

/-- The expression of an expression statement. -/
def expression? : Stmt → Option Expr
  | expression value => some value
  | _ => none

def isResult : Stmt → Bool
  | result _ => true
  | _ => false

end Stmt

/-- One `if` of a chain: a condition and the block that it guards. -/
structure Link where
  condition : Expr
  body : Block

namespace ElseBranch

/-- The chain of the links in their order, with the last block after them if there is one. -/
def ofLinks : List Link → Option Block → ElseBranch
  | [], none => .absent
  | [], some body => .block body
  | link :: links, last => .elseIf link.condition link.body (ofLinks links last)

/-- The links of the chain that a branch starts. -/
def links : ElseBranch → List Link
  | absent => []
  | elseIf condition body otherwise => ⟨condition, body⟩ :: otherwise.links
  | block _ => []

/-- The block at the end of the chain that a branch starts. -/
def last : ElseBranch → Option Block
  | absent => none
  | elseIf _ _ otherwise => otherwise.last
  | block body => some body

theorem ofLinks_links (branch : ElseBranch) : ofLinks branch.links branch.last = branch :=
  match branch with
  | absent => rfl
  | elseIf _ _ otherwise => by simp [links, last, ofLinks, ofLinks_links otherwise]
  | block _ => rfl

@[simp]
theorem links_ofLinks (chain : List Link) (block : Option Block) :
    (ofLinks chain block).links = chain := by
  induction chain with
  | nil => cases block <;> rfl
  | cons link chain ih => simp [ofLinks, links, ih]

@[simp]
theorem last_ofLinks (chain : List Link) (block : Option Block) :
    (ofLinks chain block).last = block := by
  induction chain with
  | nil => cases block <;> rfl
  | cons link chain ih => simp [ofLinks, last, ih]

def isPresent : ElseBranch → Bool
  | absent => false
  | _ => true

/-- Puts a branch behind the last link of a chain.  What stood there is replaced. -/
def attach (branch : ElseBranch) : ElseBranch → ElseBranch
  | elseIf condition body otherwise => .elseIf condition body (attach branch otherwise)
  | absent | block _ => branch

/-- Makes a link the last one of a chain. -/
def attachLink (chain : ElseBranch) (link : Link) : ElseBranch :=
  attach (.elseIf link.condition link.body .absent) chain

/-- Ends a chain with the last block, if there is one. -/
def attachLast (chain : ElseBranch) : Option Block → ElseBranch
  | none => chain
  | some body => attach (.block body) chain

theorem attach_ofLinks (links others : List Link) (old new : Option Block) :
    attach (ofLinks others new) (ofLinks links old) = ofLinks (links ++ others) new := by
  induction links with
  | nil => cases old <;> rfl
  | cons link links ih => rw [ofLinks, attach, ih, List.cons_append, ofLinks]

/-- Links that are attached one after the other follow those that were there. -/
theorem foldl_attachLink (front links : List Link) :
    links.foldl attachLink (ofLinks front none) = ofLinks (front ++ links) none := by
  induction links generalizing front with
  | nil => rw [List.foldl_nil, List.append_nil]
  | cons link links ih =>
    have hattach : (ofLinks front none).attachLink link = ofLinks (front ++ [link]) none :=
      attach_ofLinks front [link] none none
    rw [List.foldl_cons, hattach, ih, List.append_assoc, List.singleton_append]

theorem attachLast_ofLinks (links : List Link) (last : Option Block) :
    (ofLinks links none).attachLast last = ofLinks links last := by
  cases last with
  | none => rfl
  | some body =>
    have hattach := attach_ofLinks links [] none (some body)
    rwa [List.append_nil] at hattach

end ElseBranch

/-- The conditional statement of a whole chain. -/
def Stmt.ofLinks (first : Link) (others : List Link) (last : Option Block) : Stmt :=
  .conditional first.condition first.body (.ofLinks others last)

/-- A part of the tree that can be looked at for itself. -/
inductive Node where
  | expr (expr : Expr)
  | stmt (stmt : Stmt)
  | block (block : Block)
  | prototype (prototype : Prototype)
  | definition (definition : Definition)
  | unit (unit : SourceUnit)

end ExprLang
