import ExprLang.Proofs.ParserRun
import ExprLang.Proofs.Places

/-!
# What Steps Leave Alone

Whether it succeeds or halts, a step of the grammar leaves the parser with some tokens taken and
nothing else changed: options, tables and depth are as before.  When it refuses a token, it names
what it expects on one line.  The steps are composed of others, so the law is a class and follows
the way they are composed.
-/

namespace ExprLang

open Text

variable {α β : Type}

/-- The causes for which a step of the grammar refuses a token. -/
def Cause.IsRefusal : Cause → Prop
  | .unexpectedToken expected _ => OneLine expected
  | .unknownExpression _ | .expectedExpression _ | .nestingTooDeep _ => True
  | .malformedNumber _ | .emptyCompound _ => False

theorem Cause.IsRefusal.stage {cause : Cause} (h : cause.IsRefusal) :
    cause.stage = .grammatical := by
  cases cause <;> first | rfl | cases h

instance TokenKind.oneLine_describe_keyword (keyword : Keyword) :
    OneLine (TokenKind.keyword keyword).describe := by
  cases keyword <;> decide

/-- The parser that a step leaves. -/
def Parser.leaving : EStateM.Result Halt Parser α → Parser
  | .ok _ parser => parser
  | .error _ parser => parser

/-! The texts for what a step of the grammar expects. -/

instance oneLine_commaOrClosing : OneLine "')' or ','" := by decide

instance oneLine_functionName : OneLine "function name" := by decide

instance oneLine_identifier : OneLine "identifier" := by decide

instance oneLine_statementOrDeclaration : OneLine "statement or declaration" := by decide

instance oneLine_opening : OneLine (TokenKind.char '(').describe := by decide

instance oneLine_closing : OneLine (TokenKind.char ')').describe := by decide

instance oneLine_openingBrace : OneLine (TokenKind.char '\x7b').describe := by decide

instance oneLine_closingBrace : OneLine (TokenKind.char '\x7d').describe := by decide

instance oneLine_semicolon : OneLine (TokenKind.char ';').describe := by decide

instance oneLine_equals : OneLine (TokenKind.char '=').describe := by decide

namespace Parser

@[simp]
theorem leaving_ok (a : α) (parser : Parser) : leaving (.ok a parser) = parser := rfl

@[simp]
theorem leaving_error (halt : Halt) (parser : Parser) :
    leaving (.error halt parser : EStateM.Result Halt Parser α) = parser := rfl

theorem bind_apply (step : Step α) (next : α → Step β) (parser : Parser) :
    (step >>= next) parser = match step parser with
      | .ok a parser => next a parser
      | .error halt parser => .error halt parser := by
  simp only [bind, EStateM.bind]
  cases step parser <;> rfl

theorem bind_of_ok {step : Step α} {parser parser' : Parser} {a : α} (next : α → Step β)
    (h : step parser = .ok a parser') : (step >>= next) parser = next a parser' := by
  rw [bind_apply, h]

theorem bind_of_error {step : Step α} {parser parser' : Parser} {halt : Halt} (next : α → Step β)
    (h : step parser = .error halt parser') : (step >>= next) parser = .error halt parser' := by
  rw [bind_apply, h]

theorem map_apply (f : α → β) (step : Step α) (parser : Parser) :
    (f <$> step) parser = match step parser with
      | .ok a parser => .ok (f a) parser
      | .error halt parser => .error halt parser := by
  simp only [Functor.map, EStateM.map]
  cases step parser <;> rfl

/-- What a composed step yields comes from what its first part yields. -/
theorem exists_of_bind_ok {step : Step α} {next : α → Step β} {parser parser' : Parser} {b : β}
    (h : (step >>= next) parser = .ok b parser') :
    ∃ a middle, step parser = .ok a middle ∧ next a middle = .ok b parser' := by
  rw [bind_apply] at h
  cases hresult : step parser with
  | error halt middle => simp [hresult] at h
  | ok a middle => exact ⟨a, middle, rfl, by simpa only [hresult] using h⟩

theorem exists_of_map_ok {f : α → β} {step : Step α} {parser parser' : Parser} {b : β}
    (h : (f <$> step) parser = .ok b parser') : ∃ a, step parser = .ok a parser' ∧ f a = b := by
  rw [map_apply] at h
  cases hresult : step parser with
  | error halt middle => simp [hresult] at h
  | ok a middle =>
    simp only [hresult, EStateM.Result.ok.injEq] at h
    obtain ⟨rfl, rfl⟩ := h
    exact ⟨a, rfl, rfl⟩

/-- Steps that agree at a parser may be followed by steps that agree wherever the first ones can
lead. -/
theorem bind_apply_congr {step step' : Step α} {next next' : α → Step β} {parser : Parser}
    (hstep : step parser = step' parser)
    (hnext : ∀ a parser', step parser = .ok a parser' → next a parser' = next' a parser') :
    (step >>= next) parser = (step' >>= next') parser := by
  rw [bind_apply, bind_apply, ← hstep]
  cases hresult : step parser with
  | error halt parser' => rfl
  | ok a parser' => exact hnext a parser' hresult

theorem map_apply_congr {f g : α → β} {step step' : Step α} {parser : Parser}
    (hstep : step parser = step' parser)
    (h : ∀ a parser', step parser = .ok a parser' → f a = g a) :
    (f <$> step) parser = (g <$> step') parser := by
  rw [map_apply, map_apply, ← hstep]
  cases hresult : step parser with
  | error halt parser' => rfl
  | ok a parser' => exact congrArg (EStateM.Result.ok · parser') (h a parser' hresult)

theorem discard_apply (step : Step α) (parser : Parser) :
    (discard step) parser = match step parser with
      | .ok _ parser => .ok () parser
      | .error halt parser => .error halt parser :=
  map_apply _ step parser

@[simp]
theorem get_apply (parser : Parser) : (get : Step Parser) parser = .ok parser parser := rfl

@[simp]
theorem pure_apply (a : α) (parser : Parser) : (pure a : Step α) parser = .ok a parser := rfl

@[simp]
theorem get_bind_apply (next : Parser → Step α) (parser : Parser) :
    ((get : Step Parser) >>= next) parser = next parser parser := rfl

theorem unexpected_apply (expected : String) (parser : Parser) :
    (unexpected expected : Step α) parser =
      .error (.failure ⟨.unexpectedToken expected parser.current.describe, parser.position⟩)
        parser := rfl

theorem advance_apply (parser : Parser) : advance parser =
    if parser.shifted.current.kind = .malformedNumber then
      .error (.failure ⟨.malformedNumber parser.shifted.current.lexeme, parser.shifted.position⟩)
        parser.shifted
    else .ok parser.current parser.shifted := by
  simp only [advance, bind_apply, get_apply]
  by_cases h : parser.shifted.current.kind = .malformedNumber
  · have hnext : parser.lexer.next.1.kind = .malformedNumber := h
    simp [check, hnext, h]
    rfl
  · have hnext : parser.lexer.next.1.kind ≠ .malformedNumber := h
    simp [check, hnext, h]
    rfl

theorem expectAs_apply (kind : TokenKind) (expected : String) (parser : Parser) :
    expectAs kind expected parser =
      if parser.current.kind = kind then advance parser else unexpected expected parser := by
  simp only [expectAs, get_bind_apply]
  split <;> rfl

theorem discard_expectAs_apply (kind : TokenKind) (expected : String) (parser : Parser) :
    (discard (expectAs kind expected)) parser =
      (if parser.current.kind = kind then discard advance else unexpected expected : Step Unit)
        parser := by
  rw [discard_apply, expectAs_apply]
  by_cases hkind : parser.current.kind = kind
  · rw [if_pos hkind, if_pos hkind, discard_apply]
  · rw [if_neg hkind, if_neg hkind]
    rfl

theorem expectIdentifier_apply (expected : String) (parser : Parser) :
    expectIdentifier expected parser =
      if parser.current.kind = .identifier then
        (discard advance >>= fun _ ↦ pure parser.lexer.word) parser
      else unexpected expected parser := by
  simp only [expectIdentifier, get_bind_apply]
  split <;> rfl

/-- The operand of an operator once it was looked for. -/
def operandOf (operator : BinaryOperator) : Option Expr → Step Expr
  | some operand => pure operand
  | none => fail (.expectedExpression ("'" ++ operator.symbol.toString ++ "'"))

/-- Takes an operator and the operand that must follow it. -/
def operandAfter (inner : Step (Option Expr)) (operator : BinaryOperator) : Step Expr := do
  discard advance
  operandOf operator (← primaryWith inner)

theorem operationWith_eq (inner : Step (Option Expr)) (climb : BindingPower → Expr → Step Expr)
    (least : BindingPower) (left : Expr) :
    operationWith inner climb least left = (do
      match (← get).operator? with
      | none => pure none
      | some (operator, power) =>
        if power.rank < least.rank then pure none
        else
          let operand ← operandAfter inner operator
          let right ← iterate (tighterWith climb power) operand
          pure (some (.binary operator left right))) := by
  unfold operationWith operandAfter
  congr 1
  funext parser
  cases parser.operator? with
  | none => rfl
  | some operation =>
    dsimp only
    split
    · rfl
    · rw [bind_assoc]
      congr 1
      funext _
      rw [bind_assoc]
      congr 1
      funext operand
      cases operand <;> rfl

/-- A loop from the first value of its variable on. -/
def loopFrom (expr : Step (Option Expr)) (statements : Step Block) (index : String) :
    Step Stmt := do
  let initial ← requiredWith expr "'='"
  discard (expectChar ';')
  let condition ← requiredWith expr "';'"
  discard (expectChar ';')
  let step ← requiredWith expr "';'"
  discard (expectChar ')')
  let body ← blockWith statements
  built (Stmt.forLoop index initial condition step body)

theorem loopWith_eq (expr : Step (Option Expr)) (statements : Step Block) :
    loopWith expr statements = (do
      discard advance
      discard (expectChar '(')
      let index ← expectIdentifier "identifier"
      discard (expectChar '=')
      loopFrom expr statements index) := rfl

/-! ## The law -/

theorem exists_skip_bind {step : Step α} {next : α → Step β} {parser : Parser}
    (hstep : ∃ n, leaving (step parser) = parser.skip n)
    (hnext : ∀ a parser, ∃ n, leaving (next a parser) = parser.skip n) :
    ∃ n, leaving ((step >>= next) parser) = parser.skip n := by
  obtain ⟨m, hm⟩ := hstep
  rw [bind_apply]
  cases hresult : step parser with
  | error halt parser' => exact ⟨m, by rwa [hresult] at hm⟩
  | ok a parser' =>
    rw [hresult, leaving_ok] at hm
    obtain ⟨n, hn⟩ := hnext a parser'
    exact ⟨m + n, by rw [hn, hm, skip_skip]⟩

/-- A step that takes tokens and does nothing else.  It is composed of steps that look at the
parser, take the current token, refuse it or give up the statement that they build. -/
class inductive Skips : {α : Type} → Step α → Prop
  | result {α : Type} (a : α) : Skips (pure a : Step α)
  | look : Skips (get : Step Parser)
  | take : Skips advance
  | refuse {α : Type} {cause : Cause} : cause.IsRefusal → Skips (fail cause : Step α)
  | giveUp {α : Type} (defect : Defect) : Skips (throw (.defect defect) : Step α)
  | chain {α β : Type} {step : Step α} {next : α → Step β} : Skips step → (∀ a, Skips (next a)) →
      Skips (step >>= next)

namespace Skips

theorem exists_skip_apply (step : Step α) [h : Skips step] (parser : Parser) :
    ∃ n, leaving (step parser) = parser.skip n := by
  induction h generalizing parser with
  | result => exact ⟨0, rfl⟩
  | look => exact ⟨0, rfl⟩
  | take =>
    rw [advance_apply]
    split <;> exact ⟨1, rfl⟩
  | refuse => exact ⟨0, rfl⟩
  | giveUp => exact ⟨0, rfl⟩
  | chain _ _ ihstep ihnext => exact exists_skip_bind (ihstep parser) ihnext

theorem taken_le (step : Step α) [Skips step] (parser : Parser) :
    parser.taken ≤ (leaving (step parser)).taken := by
  obtain ⟨n, hn⟩ := exists_skip_apply step parser
  rw [hn, skip_taken]
  exact Nat.le_add_right _ _

instance pure (a : α) : Skips (Pure.pure a : Step α) := result a

instance get : Skips (MonadState.get : Step Parser) := look

instance bind (step : Step α) (next : α → Step β) [hstep : Skips step]
    [hnext : ∀ a, Skips (next a)] : Skips (step >>= next) := chain hstep hnext

instance expectedExpression (after : String) :
    Skips (Parser.fail (.expectedExpression after) : Step α) := refuse trivial

instance unknownExpression (token : String) :
    Skips (Parser.fail (.unknownExpression token) : Step α) := refuse trivial

instance unexpected (expected : String) [h : OneLine expected] :
    Skips (Parser.unexpected expected : Step α) := chain look fun _ ↦ refuse h

instance tooDeep : Skips (Parser.tooDeep : Step α) := chain look fun _ ↦ refuse trivial

instance map (f : α → β) (step : Step α) [Skips step] : Skips (f <$> step) := by
  rw [← bind_pure_comp]
  infer_instance

instance discard (step : Step α) [Skips step] : Skips (Functor.discard step) :=
  inferInstanceAs (Skips (Function.const α () <$> step))

instance ite (condition : Prop) [Decidable condition] (step other : Step α) [Skips step]
    [Skips other] : Skips (if condition then step else other) := by
  split <;> infer_instance

instance advance : Skips Parser.advance := take

instance peek : Skips Parser.peek := by
  rw [peek_eq]
  infer_instance

instance expectAs (kind : TokenKind) (expected : String) [OneLine expected] :
    Skips (Parser.expectAs kind expected) :=
  inferInstanceAs (Skips (do
    if (← MonadState.get).current.kind = kind then Parser.advance else Parser.unexpected expected))

instance expect (kind : TokenKind) [OneLine kind.describe] : Skips (Parser.expect kind) :=
  inferInstanceAs (Skips (Parser.expectAs kind kind.describe))

instance expectChar (c : Char) [OneLine (TokenKind.char c).describe] :
    Skips (Parser.expectChar c) :=
  inferInstanceAs (Skips (Parser.expect (.char c)))

instance expectIdentifier (expected : String) [OneLine expected] :
    Skips (Parser.expectIdentifier expected) := by
  unfold Parser.expectIdentifier
  infer_instance

instance upTo (step : Step (Option α)) [Skips step] (n : Nat) : Skips (Parser.upTo step n) := by
  induction n with
  | zero => exact inferInstanceAs (Skips (Pure.pure []))
  | succ n ih =>
    rw [Parser.upTo]
    refine @bind _ _ step _ _ fun result ↦ ?_
    cases result <;> infer_instance

instance many (step : Step (Option α)) [Skips step] : Skips (Parser.many step) := by
  unfold Parser.many
  infer_instance

instance iterateUpTo (step : α → Step (Option α)) [∀ a, Skips (step a)] (n : Nat) (a : α) :
    Skips (Parser.iterateUpTo step n a) := by
  induction n generalizing a with
  | zero => exact inferInstanceAs (Skips (Pure.pure a))
  | succ n ih =>
    rw [Parser.iterateUpTo]
    refine @bind _ _ (step a) _ _ fun result ↦ ?_
    cases result <;> infer_instance

instance iterate (step : α → Step (Option α)) [∀ a, Skips (step a)] (a : α) :
    Skips (Parser.iterate step a) := by
  unfold Parser.iterate
  infer_instance

instance afterCommas (item : Step α) [Skips item] : Skips (Parser.afterCommas item) := by
  unfold Parser.afterCommas
  infer_instance

instance built (statement : Except Defect Stmt) : Skips (Parser.built statement) := by
  cases statement with
  | error defect => exact giveUp defect
  | ok stmt => exact result stmt

section

variable (inner : Step (Option Expr)) [Skips inner]

instance requiredWith (after : String) : Skips (Parser.requiredWith inner after) := by
  unfold Parser.requiredWith
  refine @bind _ _ inner _ _ fun result ↦ ?_
  cases result <;> infer_instance

instance numberPrimary : Skips Parser.numberPrimary := by
  unfold Parser.numberPrimary
  infer_instance

instance argumentsWith : Skips (Parser.argumentsWith inner) := by
  unfold Parser.argumentsWith
  refine @bind _ _ inner _ _ fun result ↦ ?_
  cases result <;> infer_instance

instance nameWith : Skips (Parser.nameWith inner) := by
  unfold Parser.nameWith
  infer_instance

instance parenthesisedWith : Skips (Parser.parenthesisedWith inner) := by
  unfold Parser.parenthesisedWith
  infer_instance

instance formWith (form : PrimaryForm) : Skips (Parser.formWith inner form) := by
  cases form
  · exact numberPrimary
  · exact nameWith inner
  · exact parenthesisedWith inner

instance primaryWith : Skips (Parser.primaryWith inner) := by
  unfold Parser.primaryWith
  refine @bind _ _ MonadState.get _ _ fun parser ↦ ?_
  split <;> infer_instance

instance operandOf (operator : BinaryOperator) (operand : Option Expr) :
    Skips (Parser.operandOf operator operand) := by
  cases operand
  · exact expectedExpression _
  · exact Skips.pure _

instance operandAfter (operator : BinaryOperator) :
    Skips (Parser.operandAfter inner operator) := by
  unfold Parser.operandAfter
  infer_instance

section

variable (climb : BindingPower → Expr → Step Expr) [∀ least left, Skips (climb least left)]

instance tighterWith (power : BindingPower) (right : Expr) :
    Skips (Parser.tighterWith climb power right) := by
  unfold Parser.tighterWith
  refine @bind _ _ MonadState.get _ _ fun parser ↦ ?_
  split <;> infer_instance

instance operationWith (least : BindingPower) (left : Expr) :
    Skips (Parser.operationWith inner climb least left) := by
  rw [operationWith_eq]
  refine @bind _ _ MonadState.get _ _ fun parser ↦ ?_
  split <;> infer_instance

end

instance climbWithin (n : Nat) (least : BindingPower) (left : Expr) :
    Skips (Parser.climbWithin inner n least left) := by
  induction n generalizing least left with
  | zero => exact Skips.pure left
  | succ n ih =>
    rw [Parser.climbWithin]
    infer_instance

instance operationsWith (least : BindingPower) (first : Expr) :
    Skips (Parser.operationsWith inner least first) :=
  climbWithin inner _ least first

end

instance expressionWithin (levels : Nat) : Skips (Parser.expressionWithin levels) := by
  induction levels with
  | zero => exact tooDeep
  | succ levels ih =>
    rw [Parser.expressionWithin]
    refine @bind _ _ _ _ _ fun first ↦ ?_
    cases first <;> infer_instance

instance expression : Skips Parser.expression :=
  chain look fun parser ↦ expressionWithin parser.room

section

variable (expr : Step (Option Expr)) [Skips expr] (statements : Step Block) [Skips statements]

instance target : Skips Parser.target := by
  unfold Parser.target
  infer_instance

instance assignmentWith : Skips (Parser.assignmentWith expr) := by
  unfold Parser.assignmentWith
  infer_instance

instance resultWith : Skips (Parser.resultWith expr) := by
  unfold Parser.resultWith
  infer_instance

instance blockWith : Skips (Parser.blockWith statements) := by
  unfold Parser.blockWith
  infer_instance

instance linkWith : Skips (Parser.linkWith expr statements) := by
  unfold Parser.linkWith
  infer_instance

instance nextLinkWith : Skips (Parser.nextLinkWith expr statements) := by
  unfold Parser.nextLinkWith
  infer_instance

instance lastBlockWith : Skips (Parser.lastBlockWith statements) := by
  unfold Parser.lastBlockWith
  infer_instance

instance extendWith (chain : ElseBranch) : Skips (Parser.extendWith expr statements chain) := by
  unfold Parser.extendWith
  infer_instance

instance conditionalWith : Skips (Parser.conditionalWith expr statements) := by
  unfold Parser.conditionalWith
  infer_instance

instance loopFrom (index : String) : Skips (Parser.loopFrom expr statements index) := by
  unfold Parser.loopFrom
  infer_instance

instance loopWith : Skips (Parser.loopWith expr statements) := by
  rw [Parser.loopWith_eq]
  infer_instance

instance statementFormWith (form : StatementForm) :
    Skips (Parser.statementFormWith expr statements form) := by
  cases form
  · exact assignmentWith expr
  · exact resultWith expr
  · exact conditionalWith expr statements
  · exact loopWith expr statements

instance statementWith : Skips (Parser.statementWith expr statements) := by
  unfold Parser.statementWith
  refine @bind _ _ MonadState.get _ _ fun parser ↦ ?_
  split
  · infer_instance
  · split
    · infer_instance
    · refine @bind _ _ _ _ _ fun value ↦ ?_
      cases value <;> infer_instance

instance nextStatementWith : Skips (Parser.nextStatementWith expr statements) := by
  unfold Parser.nextStatementWith
  infer_instance

end

instance statementsWithin (levels : Nat) : Skips (Parser.statementsWithin levels) := by
  induction levels with
  | zero => exact tooDeep
  | succ levels ih =>
    rw [Parser.statementsWithin]
    infer_instance

instance statements : Skips Parser.statements :=
  chain look fun parser ↦ statementsWithin parser.room

instance block : Skips Parser.block := blockWith Parser.statements

end Skips

theorem exists_skip_of_ok {step : Step α} [Skips step] {parser parser' : Parser} {a : α}
    (h : step parser = .ok a parser') : ∃ n, parser' = parser.skip n := by
  obtain ⟨n, hn⟩ := Skips.exists_skip_apply step parser
  exact ⟨n, by rwa [h] at hn⟩

theorem size_le_of_ok {step : Step α} [Skips step] {parser parser' : Parser} {a : α}
    (h : step parser = .ok a parser') : parser'.size ≤ parser.size := by
  obtain ⟨n, rfl⟩ := exists_skip_of_ok h
  exact size_skip_le parser n

theorem exists_skip_leaving_bind (step : Step α) (next : α → Step β) [∀ a, Skips (next a)]
    (parser : Parser) : ∃ n, leaving ((step >>= next) parser) = (leaving (step parser)).skip n := by
  rw [bind_apply]
  cases step parser with
  | ok a parser' => exact Skips.exists_skip_apply (next a) parser'
  | error halt parser' => exact ⟨0, rfl⟩

/-- The number of levels is the same at the brace and after it. -/
theorem block_apply (parser : Parser) :
    block parser = blockWith (statementsWithin parser.room) parser := by
  simp only [block, blockWith, bind_apply]
  cases hopening : discard (expectChar '{') parser with
  | error halt parser' => rfl
  | ok _ parser' =>
    obtain ⟨n, rfl⟩ := exists_skip_of_ok hopening
    have hstatements : statements (parser.skip n) =
        statementsWithin parser.room (parser.skip n) := by
      rw [statements, skip_room]
    simp only [hstatements]

namespace Skips

instance prototype : Skips Parser.prototype := by
  unfold Parser.prototype
  -- The search for instances is bounded, so the name and the parenthesis are taken off first.
  refine @bind _ _ (Parser.expectIdentifier _) _ _ fun name ↦ ?_
  refine @bind _ _ (Functor.discard (Parser.expectChar _)) _ _ fun _ ↦ ?_
  infer_instance

instance declaration : Skips Parser.declaration := by
  unfold Parser.declaration
  infer_instance

instance definition : Skips Parser.definition := by
  unfold Parser.definition
  infer_instance

instance run : Skips Parser.run := by
  unfold Parser.run
  infer_instance

instance item : Skips Parser.item := by
  unfold Parser.item
  refine @bind _ _ MonadState.get _ _ fun parser ↦ ?_
  split <;> infer_instance

end Skips

end Parser

end ExprLang
