import ExprLang.Parser.Item

/-!
# Parser Sessions

The actions that a client can take with a parser one after the other: single tokens, the steps of
the grammar, levels of nesting and changes of the tables.
-/

namespace ExprLang.Parser

/-- The steps of the grammar. -/
inductive Form where
  | expression
  | primary
  | primaryForm (form : PrimaryForm)
  | statement
  | statements
  | block
  | statementForm (form : StatementForm)
  | prototype
  | declaration
  | definition
  | run
  | unit
deriving DecidableEq, Repr

/-- Reads what a form stands for.  An expression or a statement may be left out. -/
def Form.step : Form → Step (Option Node)
  | expression => do return (← Parser.expression).map Node.expr
  | primary => do return (← Parser.primary).map Node.expr
  | primaryForm form => do return some (.expr (← formWith Parser.expression form))
  | statement => do return (← Parser.statement).map Node.stmt
  | statements => do return some (.block (← Parser.statements))
  | block => do return some (.block (← Parser.block))
  | statementForm form => do
    return some (.stmt (← statementFormWith Parser.expression Parser.statements form))
  | prototype => do return some (.prototype (← Parser.prototype))
  | declaration => do return some (.prototype (← Parser.declaration))
  | definition => do return some (.definition (← Parser.definition))
  | run => do return some (.definition (← runDefinition))
  | unit => do return some (.unit (← Parser.unit))

inductive Action where
  | advance
  /-- The kind of the token after the current one. -/
  | peek
  /-- The kind of the current token. -/
  | current
  | position
  | options
  | tables
  | expect (kind : TokenKind)
  | expectAs (kind : TokenKind) (expected : String)
  | expectChar (c : Char)
  | expectIdentifier (expected : String)
  | unexpected (expected : String)
  /-- An expression that must follow the given thing. -/
  | required (after : String)
  /-- The operations that bind at least as tightly as a power, with their first operand. -/
  | operations (least : BindingPower) (first : Expr)
  | read (form : Form)
  /-- Another action, a number of levels deeper. -/
  | nested (levels : Nat) (action : Action)
  | registerPower (kind : TokenKind) (power : BindingPower)
  | registerPrimary (kind : TokenKind) (form : PrimaryForm)
  | registerStatement (kind : TokenKind) (form : StatementForm)

/-- What an action yields. -/
inductive Answer where
  | nothing
  | token (token : Token)
  | kind (kind : TokenKind)
  | position (position : Position)
  | options (options : Options)
  | tables (tables : Tables)
  | name (name : String)
  | node (node : Option Node)

/-- Changes the tables. -/
def changeTables (change : Tables → Tables) : Step Answer := do
  modify fun parser ↦ { parser with tables := change parser.tables }
  pure .nothing

/-- Runs a step a number of levels deeper. -/
def nestedTimes {α : Type} : Nat → Step α → Step α
  | 0, step => step
  | n + 1, step => nested (nestedTimes n step)

def Action.step : Action → Step Answer
  | advance => do return .token (← Parser.advance)
  | peek => do return .kind (← Parser.peek)
  | current => do return .kind (← get).current.kind
  | position => do return .position (← get).position
  | options => do return .options (← get).options
  | tables => do return .tables (← get).tables
  | expect kind => do return .token (← Parser.expect kind)
  | expectAs kind expected => do return .token (← Parser.expectAs kind expected)
  | expectChar c => do return .token (← Parser.expectChar c)
  | expectIdentifier expected => do return .name (← Parser.expectIdentifier expected)
  | unexpected expected => Parser.unexpected expected
  | required after => do return .node (some (.expr (← requiredExpression after)))
  | operations least first => do
    return .node (some (.expr (← operationsWith expression least first)))
  | read form => do return .node (← form.step)
  | nested levels action => nestedTimes levels action.step
  | registerPower kind power =>
    changeTables fun tables ↦ { tables with powers := tables.powers.register kind power }
  | registerPrimary kind form =>
    changeTables fun tables ↦ { tables with primaries := tables.primaries.register kind form }
  | registerStatement kind form =>
    changeTables fun tables ↦ { tables with statements := tables.statements.register kind form }

end ExprLang.Parser
