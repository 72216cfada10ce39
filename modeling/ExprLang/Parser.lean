import ExprLang.Diagnostic
import ExprLang.Lexer
import ExprLang.Options
import ExprLang.Parser.Tables
import ExprLang.Tree.Check

/-!
# The Parser

A parser holds the current token and the lexer behind it, which can be asked for one more token.  A
step takes tokens and yields a result, or halts; either way the parser it leaves can go on.
-/

namespace ExprLang

structure Parser where
  lexer : Lexer
  /-- The token that was read last and not yet taken. -/
  current : Token
  /-- How many tokens have been taken. -/
  taken : Nat
  options : Options
  /-- How many levels of nesting are open. -/
  depth : Nat
  tables : Tables
deriving DecidableEq

/-- Why a step halts. -/
inductive Halt where
  /-- The source is refused. -/
  | failure (diagnostic : Diagnostic)
  /-- The step has built a statement that cannot be. -/
  | defect (defect : Defect)
deriving DecidableEq, Repr

/-- A step of a parser. -/
abbrev Step (α : Type) := EStateM Halt Parser α

namespace Parser

variable {α : Type}

/-- The position of the current token. -/
def position (parser : Parser) : Position := ⟨parser.current.start, parser.lexer.file⟩

/-- The kind of the token after the current one, for which the lexer looks ahead. -/
def peekKind (parser : Parser) : TokenKind := parser.lexer.peek.1.kind

/-- How many more levels of nesting may be opened. -/
def room (parser : Parser) : Nat := parser.options.maxNestingDepth - parser.depth

/-- The operator that the current token is, with its power. -/
def operator? (parser : Parser) : Option (BinaryOperator × BindingPower) :=
  match parser.current.kind, parser.tables.powers.find? parser.current.kind with
  | .char c, some power => (BinaryOperator.ofChar? c).map fun operator ↦ (operator, power)
  | _, _ => none

/-- A malformed number must not become the current token. -/
def check (parser : Parser) : Except Diagnostic Unit :=
  if parser.current.kind = .malformedNumber then
    .error ⟨.malformedNumber parser.current.lexeme, parser.position⟩
  else .ok ()

/-- The parser at the first token of a source. -/
def ofSource (source : String) (options : Options) : Except Diagnostic Parser :=
  let (token, lexer) := (Lexer.ofSource source options.fileName).next
  let parser : Parser := ⟨lexer, token, 0, options, 0, .default⟩
  parser.check.map fun _ ↦ parser

/-- Halts at the current token. -/
def fail (cause : Cause) : Step α := do
  throw (.failure ⟨cause, (← get).position⟩)

/-- Looks at the kind of the token after the current one. -/
def peek : Step TokenKind := do
  let parser ← get
  let (token, lexer) := parser.lexer.peek
  set { parser with lexer := lexer }
  pure token.kind

/-- A look changes nothing, so a step may as well ask the parser. -/
theorem peek_eq : peek = (do return (← get).peekKind) := rfl

/-- Takes the current token and makes the next one current. -/
def advance : Step Token := do
  let parser ← get
  let (token, lexer) := parser.lexer.next
  let after := { parser with lexer := lexer, current := token, taken := parser.taken + 1 }
  set after
  match after.check with
  | .error diagnostic => throw (.failure diagnostic)
  | .ok () => pure parser.current

/-- Halts because the current token is not what is expected. -/
def unexpected (expected : String) : Step α := do
  fail (.unexpectedToken expected (← get).current.describe)

/-- Takes a token of the given kind, which messages call by the given name. -/
def expectAs (kind : TokenKind) (expected : String) : Step Token := do
  if (← get).current.kind = kind then advance else unexpected expected

def expect (kind : TokenKind) : Step Token := expectAs kind kind.describe

def expectChar (c : Char) : Step Token := expect (.char c)

/-- Takes an identifier and yields its name. -/
def expectIdentifier (expected : String) : Step String := do
  let parser ← get
  if parser.current.kind = .identifier then
    discard advance
    pure parser.lexer.word
  else unexpected expected

/-- Halts because no more level of nesting may be opened. -/
def tooDeep : Step α := do
  fail (.nestingTooDeep (← get).options.maxNestingDepth)

def atDepth (depth : Nat) : EStateM.Result Halt Parser α → EStateM.Result Halt Parser α
  | .ok a parser => .ok a { parser with depth := depth }
  | .error halt parser => .error halt { parser with depth := depth }

/-- Runs a step one level of nesting deeper. -/
def nested (step : Step α) : Step α := fun parser ↦
  if parser.depth < parser.options.maxNestingDepth then
    atDepth parser.depth (step { parser with depth := parser.depth + 1 })
  else tooDeep parser

/-- Repeats a step until it yields nothing, at most as often as the number tells. -/
def upTo (step : Step (Option α)) : Nat → Step (List α)
  | 0 => pure []
  | n + 1 => do
    match ← step with
    | none => pure []
    | some a => return a :: (← upTo step n)

/-- Repeats a step until it yields nothing.  A step that yields something takes a token other than
the end of input, and there are at most as many of those as characters behind the current one and
the current one itself. -/
def many (step : Step (Option α)) : Step (List α) := do
  upTo step ((← get).lexer.rest.length + 2)

/-- Replaces a value by what the step makes of it until the step yields nothing, at most as often as
the number tells. -/
def iterateUpTo (step : α → Step (Option α)) : Nat → α → Step α
  | 0, a => pure a
  | n + 1, a => do
    match ← step a with
    | none => pure a
    | some b => iterateUpTo step n b

/-- Replaces a value by what the step makes of it until the step yields nothing.  As in a
repetition, a step that yields something takes a token. -/
def iterate (step : α → Step (Option α)) (a : α) : Step α := do
  iterateUpTo step ((← get).lexer.rest.length + 2) a

/-- Takes what stands after each of the commas that follow. -/
def afterCommas (item : Step α) : Step (List α) :=
  many do
    if (← get).current.isChar ',' then
      discard advance
      some <$> item
    else pure none

/-- The statement of a checked construction. -/
def built (statement : Except Defect Stmt) : Step Stmt :=
  match statement with
  | .ok statement => pure statement
  | .error defect => throw (.defect defect)

end Parser

end ExprLang
