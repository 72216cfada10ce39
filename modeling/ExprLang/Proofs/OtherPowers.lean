import ExprLang.Proofs.ReadingExpressions

/-!
# Parsers with Other Powers

The powers of the operators decide how the operands of an expression are grouped, and nothing else.
So two parsers that differ in the table of powers take the same tokens for an expression and halt at
the same token for the same reason, as long as both tables hold all operators.  If the powers of the
operators are the same, the expressions are the same too, whatever else the tables hold.
-/

namespace ExprLang

variable {α β γ δ : Type}

/-- The two are the same, if that matters. -/
def Same (matters : Prop) (a b : α) : Prop := matters → a = b

theorem Same.refl (matters : Prop) (a : α) : Same matters a a := fun _ ↦ rfl

theorem Same.map {matters : Prop} {a b : α} (h : Same matters a b) (f : α → β) :
    Same matters (f a) (f b) :=
  fun hmatters ↦ congrArg f (h hmatters)

theorem Same.map₂ {matters : Prop} {a b : α} {a' b' : β} (h : Same matters a b)
    (h' : Same matters a' b') (f : α → β → γ) : Same matters (f a a') (f b b') :=
  fun hmatters ↦ congrArg₂ f (h hmatters) (h' hmatters)

/-- Both tables hold all operators, with the same powers if that matters. -/
def Table.Agrees (matters : Prop) (table other : Table BindingPower) : Prop :=
  ∀ operator : BinaryOperator, ∃ power power',
    table.find? (.char operator.symbol) = some power ∧
      other.find? (.char operator.symbol) = some power' ∧ Same matters power power'

namespace Parser

/-- The parser with another table of powers. -/
def withPowers (powers : Table BindingPower) (parser : Parser) : Parser :=
  { parser with tables := { parser.tables with powers := powers } }

/-- What a step of the grammar leaves alone of the parser. -/
structure InSetting (tables : Tables) (levels : Nat) (parser : Parser) : Prop where
  tables : parser.tables = tables
  room : parser.room = levels

variable {matters : Prop} {tables : Tables} {levels : Nat} {powers : Table BindingPower}

theorem operator?_of_kind {parser : Parser} {operator : BinaryOperator} {power : BindingPower}
    (hkind : parser.current.kind = .char operator.symbol)
    (hpower : parser.tables.powers.find? (.char operator.symbol) = some power) :
    parser.operator? = some (operator, power) := by
  unfold operator?
  rw [hkind, hpower]
  simp

theorem operator?_of_ne {parser : Parser}
    (h : ∀ operator : BinaryOperator, parser.current.kind ≠ .char operator.symbol) :
    parser.operator? = none := by
  unfold operator?
  split
  · next c power hkind _ =>
    cases hoperator : BinaryOperator.ofChar? c with
    | none => rfl
    | some operator =>
      obtain rfl := BinaryOperator.ofChar?_eq_some_iff.mp hoperator
      exact absurd hkind (h operator)
  · rfl

/-- Two outcomes with related results and with parsers that differ in their powers only, or with the
same failure. -/
inductive Alike (tables : Tables) (levels : Nat) (powers : Table BindingPower)
    (relates : α → β → Prop) :
    EStateM.Result Halt Parser α → EStateM.Result Halt Parser β → Prop
  | ok {a : α} {b : β} {parser : Parser} : parser.InSetting tables levels → relates a b →
      Alike tables levels powers relates (.ok a parser) (.ok b (parser.withPowers powers))
  | error (halt : Halt) (parser : Parser) : Alike tables levels powers relates
      (.error halt parser) (.error halt (parser.withPowers powers))

/-- The second step does under other powers what the first one does. -/
def Matches (tables : Tables) (levels : Nat) (powers : Table BindingPower)
    (relates : α → β → Prop) (step : Step α) (step' : Step β) : Prop :=
  ∀ parser : Parser, parser.InSetting tables levels →
    Alike tables levels powers relates (step parser) (step' (parser.withPowers powers))

namespace Matches

variable {relates : α → β → Prop} {relates' : γ → δ → Prop} {step : Step α} {step' : Step β}
  {next : α → Step γ} {next' : β → Step δ}

theorem pure {a : α} {b : β} (h : relates a b) :
    Matches tables levels powers relates (Pure.pure a) (Pure.pure b) :=
  fun _ hsetting ↦ .ok hsetting h

theorem get {next : Parser → Step α} {next' : Parser → Step β}
    (h : ∀ parser : Parser, parser.InSetting tables levels →
      Matches tables levels powers relates (next parser) (next' (parser.withPowers powers))) :
    Matches tables levels powers relates (MonadState.get >>= next) (MonadState.get >>= next') :=
  fun parser hsetting ↦ h parser hsetting parser hsetting

theorem bind (hstep : Matches tables levels powers relates step step')
    (hnext : ∀ a b, relates a b →
      Matches tables levels powers relates' (next a) (next' b)) :
    Matches tables levels powers relates' (step >>= next) (step' >>= next') := by
  intro parser hsetting
  have hresult := hstep parser hsetting
  rw [bind_apply, bind_apply]
  generalize step parser = result at hresult ⊢
  generalize step' (parser.withPowers powers) = result' at hresult ⊢
  cases hresult with
  | ok hsetting' hrelates => exact hnext _ _ hrelates _ hsetting'
  | error halt parser' => exact .error halt parser'

theorem map {make : α → γ} {make' : β → δ} (hstep : Matches tables levels powers relates step step')
    (hmake : ∀ a b, relates a b → relates' (make a) (make' b)) :
    Matches tables levels powers relates' (make <$> step) (make' <$> step') := by
  rw [← bind_pure_comp, ← bind_pure_comp]
  exact hstep.bind fun a b h ↦ pure (hmake a b h)

theorem fail (cause : Cause) :
    Matches tables levels powers relates (Parser.fail cause) (Parser.fail cause) :=
  fun parser _ ↦ .error (.failure ⟨cause, parser.position⟩) parser

theorem unexpected (expected : String) :
    Matches tables levels powers relates (Parser.unexpected expected)
      (Parser.unexpected expected) :=
  get fun parser _ ↦ fail (.unexpectedToken expected parser.current.describe)

theorem tooDeep : Matches tables levels powers relates Parser.tooDeep Parser.tooDeep :=
  get fun parser _ ↦ fail (.nestingTooDeep parser.options.maxNestingDepth)

theorem advance : Matches tables levels powers Eq (discard Parser.advance)
    (discard Parser.advance) := by
  intro parser hsetting
  have hshifted : (parser.withPowers powers).shifted = parser.shifted.withPowers powers := rfl
  rw [discard_apply, discard_apply, advance_apply, advance_apply, hshifted]
  by_cases hmalformed : parser.shifted.current.kind = .malformedNumber
  · rw [if_pos hmalformed, if_pos (by exact hmalformed)]
    exact .error _ parser.shifted
  · rw [if_neg hmalformed, if_neg (by exact hmalformed)]
    exact .ok ⟨hsetting.tables, hsetting.room⟩ rfl

theorem expectAs (kind : TokenKind) (expected : String) :
    Matches tables levels powers Eq (discard (Parser.expectAs kind expected))
      (discard (Parser.expectAs kind expected)) := by
  intro parser hsetting
  rw [discard_expectAs_apply, discard_expectAs_apply]
  by_cases hkind : parser.current.kind = kind
  · rw [if_pos hkind, if_pos (by exact hkind)]
    exact advance parser hsetting
  · rw [if_neg hkind, if_neg (by exact hkind)]
    exact unexpected expected parser hsetting

theorem expectChar (c : Char) : Matches tables levels powers Eq (discard (Parser.expectChar c))
    (discard (Parser.expectChar c)) :=
  expectAs _ _

theorem upTo {step step' : Step (Option α)}
    (hstep : Matches tables levels powers (Option.Rel (Same matters)) step step') (n : Nat) :
    Matches tables levels powers (Same matters) (Parser.upTo step n) (Parser.upTo step' n) := by
  induction n with
  | zero => exact pure (.refl matters [])
  | succ n ih =>
    refine hstep.bind fun result result' hresult ↦ ?_
    cases hresult with
    | none => exact pure (.refl matters [])
    | some ha => exact ih.bind fun as bs has ↦ pure (ha.map₂ has List.cons)

theorem many {step step' : Step (Option α)}
    (hstep : Matches tables levels powers (Option.Rel (Same matters)) step step') :
    Matches tables levels powers (Same matters) (Parser.many step) (Parser.many step') :=
  get fun parser _ ↦ hstep.upTo (parser.lexer.rest.length + 2)

theorem afterCommas {item item' : Step α}
    (hitem : Matches tables levels powers (Same matters) item item') :
    Matches tables levels powers (Same matters) (Parser.afterCommas item)
      (Parser.afterCommas item') := by
  refine many (get fun parser _ ↦ ?_)
  change Matches _ _ _ _ (if parser.current.isChar ',' then _ else _)
    (if parser.current.isChar ',' then _ else _)
  split
  · exact advance.bind fun _ _ _ ↦ hitem.map fun _ _ h ↦ .some h
  · exact pure .none

section

variable {inner inner' : Step (Option Expr)}
  (hinner : Matches tables levels powers (Option.Rel (Same matters)) inner inner')

include hinner

theorem requiredWith (after : String) : Matches tables levels powers (Same matters)
    (Parser.requiredWith inner after) (Parser.requiredWith inner' after) := by
  refine hinner.bind fun result result' hresult ↦ ?_
  cases hresult with
  | none => exact fail (.expectedExpression after)
  | some h => exact pure h

theorem argumentsWith : Matches tables levels powers (Same matters) (Parser.argumentsWith inner)
    (Parser.argumentsWith inner') := by
  refine hinner.bind fun result result' hresult ↦ ?_
  cases hresult with
  | none => exact (expectChar ')').bind fun _ _ _ ↦ pure (.refl matters [])
  | some hfirst =>
    refine (afterCommas (requiredWith hinner "','")).bind fun others others' hothers ↦ ?_
    exact (expectAs _ _).bind fun _ _ _ ↦ pure (hfirst.map₂ hothers List.cons)

theorem nameWith : Matches tables levels powers (Same matters) (Parser.nameWith inner)
    (Parser.nameWith inner') := by
  refine get fun parser _ ↦ advance.bind fun _ _ _ ↦ get fun parser' _ ↦ ?_
  change Matches _ _ _ _ (if parser'.current.isChar '(' then _ else _)
    (if parser'.current.isChar '(' then _ else _)
  split
  · refine advance.bind fun _ _ _ ↦ (argumentsWith hinner).bind fun args args' hargs ↦ ?_
    exact pure (hargs.map (Expr.call parser.lexer.word))
  · exact pure (.refl matters (Expr.var parser.lexer.word))

theorem parenthesisedWith : Matches tables levels powers (Same matters)
    (Parser.parenthesisedWith inner) (Parser.parenthesisedWith inner') := by
  refine advance.bind fun _ _ _ ↦ (requiredWith hinner "'('").bind fun expr expr' hexpr ↦ ?_
  exact (expectChar ')').bind fun _ _ _ ↦ pure hexpr

theorem formWith (form : PrimaryForm) : Matches tables levels powers (Same matters)
    (Parser.formWith inner form) (Parser.formWith inner' form) := by
  cases form with
  | number =>
    refine get fun parser _ ↦ advance.bind fun _ _ _ ↦ ?_
    exact pure (.refl matters (Expr.number parser.lexer.number))
  | name => exact nameWith hinner
  | parenthesised => exact parenthesisedWith hinner

theorem primaryWith : Matches tables levels powers (Option.Rel (Same matters))
    (Parser.primaryWith inner) (Parser.primaryWith inner') := by
  refine get fun parser _ ↦ ?_
  have hprimaries : (parser.withPowers powers).tables.primaries = parser.tables.primaries := rfl
  have hcurrent : (parser.withPowers powers).current = parser.current := rfl
  rw [hprimaries, hcurrent]
  cases parser.tables.primaries.find? parser.current.kind with
  | some form => exact (formWith hinner form).map fun _ _ h ↦ .some h
  | none =>
    dsimp only
    split
    · exact pure .none
    · exact fail (.unknownExpression parser.current.describe)

theorem operandAfter (operator : BinaryOperator) : Matches tables levels powers (Same matters)
    (Parser.operandAfter inner operator) (Parser.operandAfter inner' operator) := by
  refine advance.bind fun _ _ _ ↦ (primaryWith hinner).bind fun result result' hresult ↦ ?_
  cases hresult with
  | none => exact fail (.expectedExpression ("'" ++ operator.symbol.toString ++ "'"))
  | some h => exact pure h

variable (hpowers : Table.Agrees matters tables.powers powers)

include hpowers

/-- The rank may be any if the powers are the same.  Otherwise both powers must have it or both
not. -/
theorem nextOperation {rank : Nat} (hrank : ∀ power power' : BindingPower,
      Same matters power power' → (power.rank < rank ↔ power'.rank < rank)) :
    Matches tables levels powers (Option.Rel (Same matters)) (Parser.nextOperation inner rank)
      (Parser.nextOperation inner' rank) := by
  refine get fun parser hsetting ↦ ?_
  by_cases hkind : ∃ operator : BinaryOperator, parser.current.kind = .char operator.symbol
  · obtain ⟨operator, hkind⟩ := hkind
    obtain ⟨power, power', hpower, hpower', hsame⟩ := hpowers operator
    rw [operator?_of_kind hkind (by rwa [hsetting.tables])]
    rw [@operator?_of_kind (parser.withPowers powers) operator power' hkind hpower']
    by_cases hless : power.rank < rank
    · simp only [hless, (hrank _ _ hsame).mp hless, if_true]
      exact pure .none
    · simp only [hless, mt (hrank _ _ hsame).mpr hless, if_false]
      exact (operandAfter hinner operator).map fun _ _ hoperand ↦
        .some (hsame.map₂ hoperand (Operation.mk operator))
  · have hne (operator : BinaryOperator) : parser.current.kind ≠ .char operator.symbol :=
      fun h ↦ hkind ⟨operator, h⟩
    rw [operator?_of_ne hne, @operator?_of_ne (parser.withPowers powers) hne]
    exact pure .none

theorem operationsWith [Skips inner] [Skips inner'] {least : BindingPower}
    (hleast : ∀ power power' : BindingPower,
      Same matters power power' → (power.rank < least.rank ↔ power'.rank < least.rank))
    {first first' : Expr} (hfirst : Same matters first first') :
    Matches tables levels powers (Same matters) (Parser.operationsWith inner least first)
      (Parser.operationsWith inner' least first') := by
  rw [operationsWith_eq, operationsWith_eq]
  exact (many (nextOperation hinner hpowers hleast)).map fun _ _ hoperations ↦
    hfirst.map₂ hoperations Operation.assemble

end

theorem expressionWithin (hpowers : Table.Agrees matters tables.powers powers) (n : Nat) :
    Matches tables levels powers (Option.Rel (Same matters)) (Parser.expressionWithin n)
      (Parser.expressionWithin n) := by
  induction n with
  | zero => exact tooDeep
  | succ n ih =>
    refine (primaryWith ih).bind fun result result' hresult ↦ ?_
    cases hresult with
    | none => exact pure .none
    | some hfirst =>
      have hleast (power power' : BindingPower) (_ : Same matters power power') :
          power.rank < BindingPower.lowest.rank ↔ power'.rank < BindingPower.lowest.rank := by
        simp [BindingPower.rank]
      exact (operationsWith ih hpowers hleast hfirst).map fun _ _ h ↦ .some h

theorem expression (hpowers : Table.Agrees matters tables.powers powers) :
    Matches tables levels powers (Option.Rel (Same matters)) Parser.expression Parser.expression :=
  fun parser hsetting ↦ expressionWithin hpowers parser.room parser hsetting

end Matches

end Parser

end ExprLang
