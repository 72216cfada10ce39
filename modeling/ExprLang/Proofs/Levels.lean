import ExprLang.Proofs.ParserSessions

/-!
# Counting Levels

The steps of the grammar are given over the steps one level deeper, and the levels that are left
bound the recursion.  A parser counts the open levels instead.  Both come to the same: nothing that
a step does depends on the number of open levels but whether another one may be opened.
-/

namespace ExprLang.Parser

variable {α β : Type}

/-- An expression over the step that reads the expressions in it. -/
def expressionOver (inner : Step (Option Expr)) : Step (Option Expr) := do
  match ← primaryWith inner with
  | none => pure none
  | some first => some <$> operationsWith inner .lowest first

/-- A statement list over the steps that read the expressions and the statement lists in it. -/
def statementsOver (expr : Step (Option Expr)) (statements : Step Block) : Step Block :=
  many (nextStatementWith expr statements)

/-- Opens a level, runs a step and closes the level, whether or not the step halts. -/
def counted (step : Step α) : Step α := fun parser ↦
  if parser.depth ≥ parser.options.maxNestingDepth then tooDeep parser
  else
    let result := step { parser with depth := parser.depth + 1 }
    atDepth ((leaving result).depth - 1) result

theorem nested_eq_counted {step : Step α}
    (h : ∀ parser : Parser, (leaving (step parser)).depth = parser.depth) :
    nested step = counted step := by
  funext parser
  have hdeeper := h { parser with depth := parser.depth + 1 }
  unfold nested counted
  by_cases hroom : parser.depth < parser.options.maxNestingDepth
  · simp only [hroom, not_le.mpr hroom, hdeeper, if_true, if_false, Nat.add_sub_cancel]
  · simp only [hroom, not_lt.mp hroom, if_true, if_false]

section

variable (parser : Parser) (depth : Nat)

theorem operator?_with_depth :
    ({ parser with depth := depth } : Parser).operator? = parser.operator? := rfl

theorem peekKind_with_depth :
    ({ parser with depth := depth } : Parser).peekKind = parser.peekKind := rfl

theorem startsAssignment_with_depth :
    ({ parser with depth := depth } : Parser).startsAssignment = parser.startsAssignment := rfl

end

/-- What is kept when tokens are taken. -/
class Kept (setting : Parser → Prop) : Prop where
  skip (parser : Parser) (n : Nat) : setting parser → setting (parser.skip n)

instance kept_true : Kept fun _ ↦ True := ⟨fun _ _ h ↦ h⟩

instance kept_room (levels : Nat) : Kept fun parser ↦ parser.room = levels :=
  ⟨fun parser n h ↦ (skip_room parser n).trans h⟩

/-- In the setting, the second step does what the first one does at any depth. -/
class Shadows (setting : Parser → Prop) (step step' : Step α) : Prop where
  apply (parser : Parser) (depth : Nat) : setting { parser with depth := depth } →
    step' { parser with depth := depth } = atDepth depth (step parser)

namespace Shadows

variable {setting : Parser → Prop}

instance pure (a : α) : Shadows setting (Pure.pure a) (Pure.pure a) := ⟨fun _ _ _ ↦ rfl⟩

instance fail (cause : Cause) :
    Shadows setting (Parser.fail cause : Step α) (Parser.fail cause) :=
  ⟨fun _ _ _ ↦ rfl⟩

instance built (statement : Except Defect Stmt) :
    Shadows setting (Parser.built statement) (Parser.built statement) :=
  ⟨fun _ _ _ ↦ by cases statement <;> rfl⟩

instance advance : Shadows setting Parser.advance Parser.advance where
  apply parser depth _ := by
    rw [advance_apply, advance_apply]
    change (if parser.shifted.current.kind = .malformedNumber then _ else _) = _
    split <;> rfl

/-- Steps may look at anything but the depth. -/
instance get_bind (next next' : Parser → Step α)
    [h : ∀ (parser : Parser) (depth : Nat),
      Shadows setting (next parser) (next' { parser with depth := depth })] :
    Shadows setting (MonadState.get >>= next) (MonadState.get >>= next') :=
  ⟨fun parser depth hsetting ↦ (h parser depth).apply parser depth hsetting⟩

variable [Kept setting]

instance bind (step step' : Step α) (next next' : α → Step β) [Skips step]
    [hstep : Shadows setting step step'] [hnext : ∀ a, Shadows setting (next a) (next' a)] :
    Shadows setting (step >>= next) (step' >>= next') where
  apply parser depth hsetting := by
    rw [bind_apply, bind_apply, hstep.apply parser depth hsetting]
    cases hresult : step parser with
    | error halt parser' => rfl
    | ok a parser' =>
      obtain ⟨n, rfl⟩ := exists_skip_of_ok hresult
      apply (hnext a).apply
      rw [← skip_with_depth]
      exact Kept.skip _ n hsetting

instance map (f : α → β) (step step' : Step α) [Skips step] [Shadows setting step step'] :
    Shadows setting (f <$> step) (f <$> step') := by
  rw [← bind_pure_comp, ← bind_pure_comp]
  infer_instance

instance discard (step step' : Step α) [Skips step] [Shadows setting step step'] :
    Shadows setting (Functor.discard step) (Functor.discard step') :=
  inferInstanceAs (Shadows setting (Function.const α () <$> step) (Function.const α () <$> step'))

instance ite (condition : Prop) [Decidable condition] (step step' other other' : Step α)
    [Shadows setting step step'] [Shadows setting other other'] :
    Shadows setting (if condition then step else other) (if condition then step' else other') := by
  split <;> infer_instance

instance unexpected (expected : String) :
    Shadows setting (Parser.unexpected expected : Step α) (Parser.unexpected expected) := by
  unfold Parser.unexpected
  infer_instance

instance tooDeep : Shadows setting (Parser.tooDeep : Step α) Parser.tooDeep := by
  unfold Parser.tooDeep
  infer_instance

instance expectAs (kind : TokenKind) (expected : String) :
    Shadows setting (Parser.expectAs kind expected) (Parser.expectAs kind expected) := by
  unfold Parser.expectAs
  infer_instance

instance expectChar (c : Char) :
    Shadows setting (Parser.expectChar c) (Parser.expectChar c) :=
  expectAs _ _

instance expect (kind : TokenKind) :
    Shadows setting (Parser.expect kind) (Parser.expect kind) :=
  expectAs _ _

instance expectIdentifier (expected : String) :
    Shadows setting (Parser.expectIdentifier expected) (Parser.expectIdentifier expected) := by
  unfold Parser.expectIdentifier
  infer_instance

instance upTo (step step' : Step (Option α)) [Skips step] [Shadows setting step step'] (n : Nat) :
    Shadows setting (Parser.upTo step n) (Parser.upTo step' n) := by
  induction n with
  | zero => exact pure []
  | succ n ih =>
    rw [Parser.upTo, Parser.upTo]
    refine @bind _ _ setting _ step step' _ _ _ _ fun result ↦ ?_
    cases result <;> infer_instance

instance many (step step' : Step (Option α)) [Skips step] [Shadows setting step step'] :
    Shadows setting (Parser.many step) (Parser.many step') := by
  unfold Parser.many
  infer_instance

instance iterateUpTo (step step' : α → Step (Option α)) [∀ a, Skips (step a)]
    [∀ a, Shadows setting (step a) (step' a)] (n : Nat) (a : α) :
    Shadows setting (Parser.iterateUpTo step n a) (Parser.iterateUpTo step' n a) := by
  induction n generalizing a with
  | zero => exact pure a
  | succ n ih =>
    rw [Parser.iterateUpTo, Parser.iterateUpTo]
    refine @bind _ _ setting _ (step a) (step' a) _ _ _ _ fun result ↦ ?_
    cases result <;> infer_instance

instance iterate (step step' : α → Step (Option α)) [∀ a, Skips (step a)]
    [∀ a, Shadows setting (step a) (step' a)] (a : α) :
    Shadows setting (Parser.iterate step a) (Parser.iterate step' a) := by
  unfold Parser.iterate
  infer_instance

instance afterCommas (item item' : Step α) [Skips item] [Shadows setting item item'] :
    Shadows setting (Parser.afterCommas item) (Parser.afterCommas item') := by
  unfold Parser.afterCommas
  infer_instance

section

variable (inner inner' : Step (Option Expr)) [Skips inner] [Shadows setting inner inner']

instance requiredWith (after : String) :
    Shadows setting (Parser.requiredWith inner after) (Parser.requiredWith inner' after) := by
  unfold Parser.requiredWith
  refine @bind _ _ setting _ inner inner' _ _ _ _ fun result ↦ ?_
  cases result <;> infer_instance

instance numberPrimary : Shadows setting Parser.numberPrimary Parser.numberPrimary := by
  unfold Parser.numberPrimary
  infer_instance

instance argumentsWith :
    Shadows setting (Parser.argumentsWith inner) (Parser.argumentsWith inner') := by
  unfold Parser.argumentsWith
  refine @bind _ _ setting _ inner inner' _ _ _ _ fun result ↦ ?_
  cases result <;> infer_instance

instance nameWith : Shadows setting (Parser.nameWith inner) (Parser.nameWith inner') := by
  unfold Parser.nameWith
  refine @get_bind _ setting _ _ fun parser depth ↦ ?_
  dsimp only
  infer_instance

instance parenthesisedWith :
    Shadows setting (Parser.parenthesisedWith inner) (Parser.parenthesisedWith inner') := by
  unfold Parser.parenthesisedWith
  infer_instance

instance formWith (form : PrimaryForm) :
    Shadows setting (Parser.formWith inner form) (Parser.formWith inner' form) := by
  cases form
  · exact numberPrimary
  · exact nameWith inner inner'
  · exact parenthesisedWith inner inner'

instance primaryWith :
    Shadows setting (Parser.primaryWith inner) (Parser.primaryWith inner') := by
  unfold Parser.primaryWith
  refine @get_bind _ setting _ _ fun parser depth ↦ ?_
  dsimp only
  cases parser.tables.primaries.find? parser.current.kind <;> infer_instance

instance operandOf (operator : BinaryOperator) (operand : Option Expr) :
    Shadows setting (Parser.operandOf operator operand) (Parser.operandOf operator operand) := by
  cases operand
  · exact fail _
  · exact pure _

instance operandAfter (operator : BinaryOperator) :
    Shadows setting (Parser.operandAfter inner operator) (Parser.operandAfter inner' operator) := by
  unfold Parser.operandAfter
  infer_instance

section

variable (climb climb' : BindingPower → Expr → Step Expr) [∀ least left, Skips (climb least left)]
  [∀ least left, Shadows setting (climb least left) (climb' least left)]

instance tighterWith (power : BindingPower) (right : Expr) :
    Shadows setting (Parser.tighterWith climb power right)
      (Parser.tighterWith climb' power right) := by
  unfold Parser.tighterWith
  refine @get_bind _ setting _ _ fun parser depth ↦ ?_
  rw [operator?_with_depth parser depth]
  cases parser.operator? <;> infer_instance

instance operationWith (least : BindingPower) (left : Expr) :
    Shadows setting (Parser.operationWith inner climb least left)
      (Parser.operationWith inner' climb' least left) := by
  rw [operationWith_eq, operationWith_eq]
  refine @get_bind _ setting _ _ fun parser depth ↦ ?_
  rw [operator?_with_depth parser depth]
  cases parser.operator? <;> infer_instance

end

instance climbWithin (n : Nat) (least : BindingPower) (left : Expr) :
    Shadows setting (Parser.climbWithin inner n least left)
      (Parser.climbWithin inner' n least left) := by
  induction n generalizing least left with
  | zero => exact pure left
  | succ n ih =>
    rw [Parser.climbWithin, Parser.climbWithin]
    infer_instance

instance operationsWith (least : BindingPower) (first : Expr) :
    Shadows setting (Parser.operationsWith inner least first)
      (Parser.operationsWith inner' least first) :=
  climbWithin inner inner' _ least first

instance expressionOver :
    Shadows setting (Parser.expressionOver inner) (Parser.expressionOver inner') := by
  unfold Parser.expressionOver
  refine @bind _ _ setting _ _ _ _ _ _ _ fun first ↦ ?_
  cases first <;> infer_instance

end

instance expressionWithin (levels : Nat) :
    Shadows setting (Parser.expressionWithin levels) (Parser.expressionWithin levels) := by
  induction levels with
  | zero => exact tooDeep
  | succ levels ih => exact expressionOver _ _

section

variable (expr expr' : Step (Option Expr)) [Skips expr] [Shadows setting expr expr']
  (statements statements' : Step Block) [Skips statements] [Shadows setting statements statements']

instance target : Shadows setting Parser.target Parser.target := by
  unfold Parser.target
  refine @get_bind _ setting _ _ fun parser depth ↦ ?_
  dsimp only
  rw [startsAssignment_with_depth parser depth]
  infer_instance

instance assignmentWith :
    Shadows setting (Parser.assignmentWith expr) (Parser.assignmentWith expr') := by
  unfold Parser.assignmentWith
  infer_instance

instance resultWith : Shadows setting (Parser.resultWith expr) (Parser.resultWith expr') := by
  unfold Parser.resultWith
  infer_instance

instance blockWith :
    Shadows setting (Parser.blockWith statements) (Parser.blockWith statements') := by
  unfold Parser.blockWith
  infer_instance

instance linkWith :
    Shadows setting (Parser.linkWith expr statements) (Parser.linkWith expr' statements') := by
  unfold Parser.linkWith
  infer_instance

instance nextLinkWith : Shadows setting (Parser.nextLinkWith expr statements)
    (Parser.nextLinkWith expr' statements') := by
  unfold Parser.nextLinkWith
  refine @get_bind _ setting _ _ fun parser depth ↦ ?_
  dsimp only
  rw [peekKind_with_depth parser depth]
  infer_instance

instance lastBlockWith :
    Shadows setting (Parser.lastBlockWith statements) (Parser.lastBlockWith statements') := by
  unfold Parser.lastBlockWith
  infer_instance

instance extendWith (chain : ElseBranch) :
    Shadows setting (Parser.extendWith expr statements chain)
      (Parser.extendWith expr' statements' chain) := by
  unfold Parser.extendWith
  infer_instance

instance conditionalWith : Shadows setting (Parser.conditionalWith expr statements)
    (Parser.conditionalWith expr' statements') := by
  unfold Parser.conditionalWith
  infer_instance

instance loopFrom (index : String) : Shadows setting (Parser.loopFrom expr statements index)
    (Parser.loopFrom expr' statements' index) := by
  unfold Parser.loopFrom
  -- The search for instances is bounded, so the first parts are taken off one by one.
  refine @bind _ _ setting _ (Parser.requiredWith expr _) _ _ _ _ _ fun initial ↦ ?_
  refine @bind _ _ setting _ (Functor.discard (Parser.expectChar _)) _ _ _ _ _ fun _ ↦ ?_
  refine @bind _ _ setting _ (Parser.requiredWith expr _) _ _ _ _ _ fun condition ↦ ?_
  infer_instance

instance loopWith :
    Shadows setting (Parser.loopWith expr statements) (Parser.loopWith expr' statements') := by
  rw [Parser.loopWith_eq, Parser.loopWith_eq]
  refine @bind _ _ setting _ (Functor.discard Parser.advance) _ _ _ _ _ fun _ ↦ ?_
  infer_instance

instance statementFormWith (form : StatementForm) :
    Shadows setting (Parser.statementFormWith expr statements form)
      (Parser.statementFormWith expr' statements' form) := by
  cases form
  · exact assignmentWith expr expr'
  · exact resultWith expr expr'
  · exact conditionalWith expr expr' statements statements'
  · exact loopWith expr expr' statements statements'

instance statementWith : Shadows setting (Parser.statementWith expr statements)
    (Parser.statementWith expr' statements') := by
  unfold Parser.statementWith
  refine @get_bind _ setting _ _ fun parser depth ↦ ?_
  dsimp only
  rw [startsAssignment_with_depth parser depth]
  cases parser.tables.statements.find? parser.current.kind with
  | some form => infer_instance
  | none =>
    dsimp only
    split
    · infer_instance
    · refine @bind _ _ setting _ expr expr' _ _ _ _ fun value ↦ ?_
      cases value <;> infer_instance

instance nextStatementWith : Shadows setting (Parser.nextStatementWith expr statements)
    (Parser.nextStatementWith expr' statements') := by
  unfold Parser.nextStatementWith
  infer_instance

instance statementsOver : Shadows setting (Parser.statementsOver expr statements)
    (Parser.statementsOver expr' statements') := by
  unfold Parser.statementsOver
  infer_instance

end

instance statementsWithin (levels : Nat) :
    Shadows setting (Parser.statementsWithin levels) (Parser.statementsWithin levels) := by
  induction levels with
  | zero => exact tooDeep
  | succ levels ih => exact statementsOver _ _ _ _

/-! ## Levels that are left -/

variable {levels : Nat}

instance expression : Shadows (fun parser ↦ parser.room = levels)
    (Parser.expressionWithin levels) Parser.expression where
  apply parser depth hroom := by
    rw [Parser.expression, hroom]
    have hblind : Shadows (fun _ ↦ True) (Parser.expressionWithin levels)
      (Parser.expressionWithin levels) := expressionWithin levels
    exact hblind.apply parser depth trivial

instance statements : Shadows (fun parser ↦ parser.room = levels)
    (Parser.statementsWithin levels) Parser.statements where
  apply parser depth hroom := by
    rw [Parser.statements, hroom]
    have hblind : Shadows (fun _ ↦ True) (Parser.statementsWithin levels)
      (Parser.statementsWithin levels) := statementsWithin levels
    exact hblind.apply parser depth trivial

end Shadows

theorem atDepth_eq_self {result : EStateM.Result Halt Parser α} {depth depth' : Nat}
    (h : (leaving result).depth = depth) : atDepth depth (atDepth depth' result) = result := by
  subst h
  cases result <;> rfl

theorem Skips.leaving_depth (step : Step α) [Skips step] (parser : Parser) :
    (leaving (step parser)).depth = parser.depth := by
  obtain ⟨n, hn⟩ := exists_skip_apply step parser
  rw [hn, skip_depth]

/-- Steps within the levels that are left are one level deep, if what they do within one more level
is done over them. -/
theorem eq_nested_of_levels {within : Nat → Step α} {outer : Step α}
    (hskips : ∀ levels, Skips (within levels)) (hzero : within 0 = tooDeep)
    (hsucc : ∀ levels, Shadows (fun parser ↦ parser.room = levels) (within (levels + 1)) outer) :
    (fun parser ↦ within parser.room parser) = nested outer := by
  funext parser
  unfold nested
  split
  · next hroom =>
    obtain ⟨levels, hlevels⟩ : ∃ levels, parser.room = levels + 1 :=
      Nat.exists_eq_add_one.mpr (Nat.sub_pos_of_lt hroom)
    have hdeeper : ({ parser with depth := parser.depth + 1 } : Parser).room = levels := by
      simp only [room] at hlevels ⊢
      omega
    rw [(hsucc levels).apply parser (parser.depth + 1) hdeeper, hlevels,
      atDepth_eq_self (Skips.leaving_depth (within (levels + 1)) parser)]
  · next hroom =>
    have hlevels : parser.room = 0 := Nat.sub_eq_zero_of_le (not_lt.mp hroom)
    rw [hlevels, hzero]

/-- An expression opens a level of its own. -/
theorem expression_eq_nested : expression = nested (expressionOver expression) :=
  eq_nested_of_levels (fun _ ↦ inferInstance) rfl fun levels ↦
    Shadows.expressionOver (expressionWithin levels) expression

/-- A statement list opens a level of its own. -/
theorem statements_eq_nested : statements = nested (statementsOver expression statements) :=
  eq_nested_of_levels (fun _ ↦ inferInstance) rfl fun levels ↦
    Shadows.statementsOver (expressionWithin levels) expression (statementsWithin levels) statements

end ExprLang.Parser
