import ExprLang.Parser.Expression

/-!
# Reading Statements

A statement starts with a word of its own, or is an assignment when `=` follows an identifier, or is
an expression.  Blocks nest: the steps are given over the steps that read an expression and a
statement list one level deeper.
-/

namespace ExprLang.Parser

/-- The words that start a declaration and end a statement list. -/
def startsDeclaration (kind : TokenKind) : Bool :=
  kind = .keyword .definition || kind = .keyword .declaration

theorem startsDeclaration_iff {kind : TokenKind} : startsDeclaration kind ↔
    kind = .keyword .definition ∨ kind = .keyword .declaration := by
  simp [startsDeclaration]

/-- An identifier is assigned to if `=` directly follows it. -/
def startsAssignment (parser : Parser) : Bool :=
  parser.current.kind = .identifier && parser.peekKind = .char '='

section

variable (expr : Step (Option Expr)) (statements : Step Block)

/-- Takes one target of an assignment and the `=` after it. -/
def target : Step (Option String) := do
  let parser ← get
  if parser.startsAssignment then
    discard advance
    discard advance
    pure (some parser.lexer.word)
  else pure none

def assignmentWith : Step Stmt := do
  let targets ← many target
  let value ← requiredWith expr "'='"
  discard (expectChar ';')
  built (Stmt.assign targets value)

def resultWith : Step Stmt := do
  discard advance
  let value ← requiredWith expr "'return'"
  discard (expectChar ';')
  pure (.result value)

/-- Statements between braces. -/
def blockWith : Step Block := do
  discard (expectChar '{')
  let body ← statements
  discard (expectChar '}')
  pure body

/-- One `if` with its condition and body. -/
def linkWith : Step Link := do
  discard (expect (.keyword .branch))
  let condition ← requiredWith expr "'if'"
  let body ← blockWith statements
  pure ⟨condition, body⟩

/-- The next link of a chain, if `else if` follows. -/
def nextLinkWith : Step (Option Link) := do
  let parser ← get
  if parser.current.kind = .keyword .otherwise ∧ parser.peekKind = .keyword .branch then
    discard advance
    some <$> linkWith expr statements
  else pure none

/-- The block of an `else`, if one follows. -/
def lastBlockWith : Step (Option Block) := do
  if (← get).current.kind = .keyword .otherwise then
    discard advance
    some <$> blockWith statements
  else pure none

/-- Attaches the next link to a chain, if `else if` follows. -/
def extendWith (chain : ElseBranch) : Step (Option ElseBranch) :=
  Option.map chain.attachLink <$> nextLinkWith expr statements

/-- A chain of conditions, built link by link. -/
def conditionalWith : Step Stmt := do
  let first ← linkWith expr statements
  let chain ← iterate (extendWith expr statements) .absent
  let last ← lastBlockWith statements
  pure (.conditional first.condition first.body (chain.attachLast last))

def loopWith : Step Stmt := do
  discard advance
  discard (expectChar '(')
  let index ← expectIdentifier "identifier"
  discard (expectChar '=')
  let initial ← requiredWith expr "'='"
  discard (expectChar ';')
  let condition ← requiredWith expr "';'"
  discard (expectChar ';')
  let step ← requiredWith expr "';'"
  discard (expectChar ')')
  let body ← blockWith statements
  built (Stmt.forLoop index initial condition step body)

def statementFormWith : StatementForm → Step Stmt
  | .assignment => assignmentWith expr
  | .result => resultWith expr
  | .conditional => conditionalWith expr statements
  | .loop => loopWith expr statements

def statementWith : Step (Option Stmt) := do
  let parser ← get
  match parser.tables.statements.find? parser.current.kind with
  | some form => some <$> statementFormWith expr statements form
  | none =>
    if parser.startsAssignment then some <$> assignmentWith expr
    else
      match ← expr with
      | none => pure none
      | some value =>
        discard (expectChar ';')
        pure (some (.expression value))

/-- The next statement of a list, which ends before a declaration. -/
def nextStatementWith : Step (Option Stmt) := do
  if startsDeclaration (← get).current.kind then pure none
  else statementWith expr statements

end

/-- A statement list within the given number of levels, its own included. -/
def statementsWithin : Nat → Step Block
  | 0 => tooDeep
  | levels + 1 => many (nextStatementWith (expressionWithin levels) (statementsWithin levels))

/-- The statements up to a token that cannot go on the list. -/
def statements : Step Block := fun parser ↦ statementsWithin parser.room parser

def statement : Step (Option Stmt) := statementWith expression statements

def block : Step Block := blockWith statements

end ExprLang.Parser
