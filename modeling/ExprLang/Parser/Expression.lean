import ExprLang.Parser

/-!
# Reading Expressions

An expression is a sequence of primary expressions with binary operators between them.  An operator
that binds more tightly than the one before it takes the operand between them, and among equals the
earlier one does: the tree on the left grows by one operation after the other, and a right operand
first climbs to the operators that bind more tightly.

Where an expression may be left out, the steps yield nothing at a token that closes a construct.
The steps are given over the step that reads an expression one level deeper, and the number of
levels left bounds the recursion.
-/

namespace ExprLang.Parser

/-- The tokens at which an expression may be left out. -/
def isCloser : TokenKind → Bool
  | .char c => c = '}' || c = ')' || c = ';'
  | .endOfInput => true
  | _ => false

theorem isCloser_iff {kind : TokenKind} : isCloser kind ↔
    kind = .char '}' ∨ kind = .char ')' ∨ kind = .char ';' ∨ kind = .endOfInput := by
  unfold isCloser
  cases kind <;> simp [or_assoc]

section

variable (inner : Step (Option Expr))

/-- An expression that must not be left out after the given thing. -/
def requiredWith (after : String) : Step Expr := do
  match ← inner with
  | some expr => pure expr
  | none => fail (.expectedExpression after)

/-- The value of the last number read. -/
def numberPrimary : Step Expr := do
  let value := (← get).lexer.number
  discard advance
  pure (.number value)

/-- The arguments of a call, after its opening parenthesis. -/
def argumentsWith : Step (List Expr) := do
  match ← inner with
  | none =>
    discard (expectChar ')')
    pure []
  | some first =>
    let others ← afterCommas (requiredWith inner "','")
    discard (expectAs (.char ')') "')' or ','")
    pure (first :: others)

/-- The last word read, as a variable or as the function of a call. -/
def nameWith : Step Expr := do
  let name := (← get).lexer.word
  discard advance
  if (← get).current.isChar '(' then
    discard advance
    return .call name (← argumentsWith inner)
  else pure (.var name)

/-- An expression in parentheses, which leave no trace. -/
def parenthesisedWith : Step Expr := do
  discard advance
  let expr ← requiredWith inner "'('"
  discard (expectChar ')')
  pure expr

def formWith : PrimaryForm → Step Expr
  | .number => numberPrimary
  | .name => nameWith inner
  | .parenthesised => parenthesisedWith inner

def primaryWith : Step (Option Expr) := do
  let parser ← get
  match parser.tables.primaries.find? parser.current.kind with
  | some form => some <$> formWith inner form
  | none =>
    if isCloser parser.current.kind then pure none
    else fail (.unknownExpression parser.current.describe)

/-- Extends the right operand of an operator, if the next operator binds more tightly than that one
and so takes the operand as its own left side first. -/
def tighterWith (climb : BindingPower → Expr → Step Expr) (power : BindingPower) (right : Expr) :
    Step (Option Expr) := do
  match (← get).operator? with
  | none => pure none
  | some (_, next) =>
    if next.rank ≤ power.rank then pure none
    else some <$> climb next right

/-- Makes a tree the left operand of the next operator, if that binds at least as tightly as the
given power. -/
def operationWith (climb : BindingPower → Expr → Step Expr) (least : BindingPower) (left : Expr) :
    Step (Option Expr) := do
  match (← get).operator? with
  | none => pure none
  | some (operator, power) =>
    if power.rank < least.rank then pure none
    else
      discard advance
      match ← primaryWith inner with
      | none => fail (.expectedExpression ("'" ++ operator.symbol.toString ++ "'"))
      | some operand =>
        let right ← iterate (tighterWith climb power) operand
        pure (some (.binary operator left right))

/-- Adds the operations that bind at least as tightly as the given power to the tree on their left.
The number bounds how often a right operand asks for a tighter power. -/
def climbWithin : Nat → BindingPower → Expr → Step Expr
  | 0, _, left => pure left
  | n + 1, least, left => iterate (operationWith inner (climbWithin n) least) left

/-- The tree of an operand that has been read and the operations after it.  Every right operand asks
for a tighter power than the one before, so as many climbs as there are powers are enough. -/
def operationsWith (least : BindingPower) (first : Expr) : Step Expr :=
  climbWithin inner BindingPower.count least first

end

/-- An expression within the given number of levels, its own included. -/
def expressionWithin : Nat → Step (Option Expr)
  | 0 => tooDeep
  | levels + 1 => do
    match ← primaryWith (expressionWithin levels) with
    | none => pure none
    | some first => some <$> operationsWith (expressionWithin levels) .lowest first

/-- An expression, unless the current token closes a construct. -/
def expression : Step (Option Expr) := fun parser ↦ expressionWithin parser.room parser

def requiredExpression (after : String) : Step Expr := requiredWith expression after

def primary : Step (Option Expr) := primaryWith expression

end ExprLang.Parser
