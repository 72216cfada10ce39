import ExprLang.Proofs.ReadingItems

/-!
# Missing Expressions

Where an expression must follow but none does, a step halts at a token that closes a construct and
names the token before it.  The texts of these names stand in the steps themselves, so the law says
of each step that a name it uses is that of a token it has taken.
-/

namespace ExprLang

variable {α β : Type}

theorem Token.describe_of_char {token : Token} {c : Char} (h : token.kind = .char c) :
    token.describe = TokenKind.describe (.char c) := by
  rw [describe, h]

theorem Token.describe_of_keyword {token : Token} {keyword : Keyword}
    (h : token.kind = .keyword keyword) :
    token.describe = TokenKind.describe (.keyword keyword) := by
  rw [describe, h]

namespace Parser

variable {origin : Parser} {k levels : Nat}

/-- Run after a number of tokens, the step halts for want of an expression only at a token that
closes a construct, and it names the token before that one. -/
def NamesTaken (origin : Parser) (k : Nat) (step : Step α) : Prop :=
  ∀ after position parser',
    step (origin.skip k) = .error (.failure ⟨.expectedExpression after, position⟩) parser' →
      isCloser parser'.current.kind ∧
        ∃ n, parser' = origin.skip (n + 1) ∧ (origin.skip n).current.describe = after

/-- Wherever it is run, the step names a token that it has taken itself. -/
class NamesOwn (step : Step α) : Prop where
  names : ∀ parser : Parser, parser.Ready → parser.NamesTaken 0 step

namespace NamesTaken

variable {step : Step α} {next : α → Step β}

/-- A step that names a token of its own may be run after any other tokens. -/
theorem of_own (h : origin.Ready) (step : Step α) [hstep : NamesOwn step] :
    origin.NamesTaken k step := by
  intro after position parser' heq
  obtain ⟨hcloser, n, hn, hname⟩ := hstep.names _ (h.skip k) after position parser' heq
  rw [skip_skip] at hn hname
  exact ⟨hcloser, k + n, hn, hname⟩

theorem of_apply {other : Step α} (h : step (origin.skip k) = other (origin.skip k))
    (hother : origin.NamesTaken k other) : origin.NamesTaken k step := by
  intro after position parser' heq
  exact hother after position parser' (h ▸ heq)

theorem pure (a : α) : origin.NamesTaken k (Pure.pure a) := by
  rintro after position parser' ⟨⟩

theorem fail {cause : Cause} (h : ∀ after, cause ≠ .expectedExpression after) :
    origin.NamesTaken k (Parser.fail cause : Step α) := by
  rintro after position parser' heq
  obtain ⟨hhalt, -⟩ := EStateM.Result.error.inj heq
  exact absurd (congrArg Diagnostic.cause (Halt.failure.inj hhalt)) (h after)

theorem get {next : Parser → Step α} (h : origin.NamesTaken k (next (origin.skip k))) :
    origin.NamesTaken k (MonadState.get >>= next) := h

theorem bind [Skips step] (hstep : origin.NamesTaken k step)
    (hnext : ∀ a n, step (origin.skip k) = .ok a (origin.skip n) →
      origin.NamesTaken n (next a)) : origin.NamesTaken k (step >>= next) := by
  intro after position parser' heq
  rw [bind_apply] at heq
  cases hresult : step (origin.skip k) with
  | error halt parser'' =>
    rw [hresult] at heq
    obtain ⟨rfl, rfl⟩ := EStateM.Result.error.inj heq
    exact hstep after position parser'' hresult
  | ok a parser'' =>
    rw [hresult] at heq
    obtain ⟨n, rfl⟩ := exists_skip_of_ok hresult
    rw [skip_skip] at hresult heq
    exact hnext a _ hresult after position parser' heq

theorem map (f : α → β) (hstep : origin.NamesTaken k step) : origin.NamesTaken k (f <$> step) := by
  intro after position parser' heq
  rw [map_apply] at heq
  cases hresult : step (origin.skip k) with
  | ok a parser'' => simp [hresult] at heq
  | error halt parser'' =>
    rw [hresult] at heq
    obtain ⟨rfl, rfl⟩ := EStateM.Result.error.inj heq
    exact hstep after position parser'' hresult

/-- What comes after a token has been taken. -/
theorem bind_advance {next : Unit → Step β} (hnext : origin.NamesTaken (k + 1) (next ())) :
    origin.NamesTaken k (discard advance >>= next) := by
  intro after position parser' heq
  have hshifted : (origin.skip k).shifted = origin.skip (k + 1) := by
    rw [← skip_one, skip_skip]
  rw [bind_apply, discard_apply, advance_apply, hshifted] at heq
  by_cases hkind : (origin.skip (k + 1)).current.kind = .malformedNumber
  · simp [hkind] at heq
  · simp only [hkind, if_false] at heq
    exact hnext after position parser' heq

/-- What comes after an expected token has been taken. -/
theorem bind_expectAs {next : Unit → Step β} {kind : TokenKind} {expected : String}
    (hnext : (origin.skip k).current.kind = kind → origin.NamesTaken (k + 1) (next ())) :
    origin.NamesTaken k (discard (Parser.expectAs kind expected) >>= next) := by
  have hexpect := discard_expectAs_apply kind expected (origin.skip k)
  by_cases hkind : (origin.skip k).current.kind = kind
  · rw [if_pos hkind] at hexpect
    refine of_apply ?_ (bind_advance (hnext hkind))
    rw [bind_apply, bind_apply, hexpect]
  · rw [if_neg hkind] at hexpect
    rintro after position parser' heq
    rw [bind_apply, hexpect] at heq
    cases heq

/-- Where nothing was taken in place of an expression, the name is that of the token before. -/
theorem bind_option {step : Step (Option α)} {next : Option α → Step β}
    {spells : α → List Symbol → Prop} {after : String} [Skips step]
    (hstep : origin.NamesTaken (k + 1) step)
    (hreads : (origin.skip (k + 1)).Reads step
      (Maybe (isCloser (origin.skip (k + 1)).current.kind) spells) 0)
    (hafter : (origin.skip k).current.describe = after)
    (hnone : next none = Parser.fail (.expectedExpression after))
    (hsome : ∀ a n, origin.NamesTaken n (next (some a))) :
    origin.NamesTaken (k + 1) (step >>= next) := by
  apply hstep.bind
  intro result n hresult
  cases result with
  | some a => exact hsome a n
  | none =>
    obtain ⟨m, hm, hcloser, hword⟩ := hreads.exists_of_ok hresult
    obtain rfl : m = 0 := length_of_ahead_eq hword
    obtain rfl := skip_injective hm
    rw [hnone]
    rintro after' position parser' heq
    obtain ⟨hhalt, rfl⟩ := EStateM.Result.error.inj heq
    have hcause := congrArg Diagnostic.cause (Halt.failure.inj hhalt)
    exact ⟨hcloser, k, rfl, hafter.trans (Cause.expectedExpression.inj hcause)⟩

end NamesTaken

namespace NamesOwn

instance pure (a : α) : NamesOwn (Pure.pure a : Step α) := ⟨fun _ _ ↦ .pure a⟩

instance get : NamesOwn (MonadState.get : Step Parser) where
  names parser _ := by rintro after position parser' ⟨⟩

instance bind (step : Step α) (next : α → Step β) [Skips step] [NamesOwn step]
    [∀ a, NamesOwn (next a)] : NamesOwn (step >>= next) where
  names _ h := (NamesTaken.of_own h step).bind fun a _ _ ↦ NamesTaken.of_own h (next a)

instance map (f : α → β) (step : Step α) [NamesOwn step] : NamesOwn (f <$> step) where
  names _ h := (NamesTaken.of_own h step).map f

instance discard (step : Step α) [NamesOwn step] : NamesOwn (Functor.discard step) :=
  inferInstanceAs (NamesOwn (Function.const α () <$> step))

instance ite (condition : Prop) [Decidable condition] (step other : Step α) [NamesOwn step]
    [NamesOwn other] : NamesOwn (if condition then step else other) := by
  split <;> infer_instance

instance unknownExpression (token : String) :
    NamesOwn (Parser.fail (.unknownExpression token) : Step α) where
  names _ _ := .fail fun _ ↦ by simp

instance unexpected (expected : String) : NamesOwn (Parser.unexpected expected : Step α) where
  names _ _ := .get (.fail fun _ ↦ by simp)

instance tooDeep : NamesOwn (Parser.tooDeep : Step α) where
  names _ _ := .get (.fail fun _ ↦ by simp)

instance advance : NamesOwn Parser.advance where
  names parser _ := by
    intro after position parser' heq
    rw [advance_apply] at heq
    split at heq <;> cases heq

instance expectAs (kind : TokenKind) (expected : String) :
    NamesOwn (Parser.expectAs kind expected) :=
  inferInstanceAs (NamesOwn (do
    if (← MonadState.get).current.kind = kind then Parser.advance else Parser.unexpected expected))

instance expect (kind : TokenKind) : NamesOwn (Parser.expect kind) :=
  inferInstanceAs (NamesOwn (Parser.expectAs kind kind.describe))

instance expectChar (c : Char) : NamesOwn (Parser.expectChar c) :=
  inferInstanceAs (NamesOwn (Parser.expect (.char c)))

instance expectIdentifier (expected : String) : NamesOwn (Parser.expectIdentifier expected) := by
  unfold Parser.expectIdentifier
  infer_instance

instance upTo (step : Step (Option α)) [Skips step] [NamesOwn step] (n : Nat) :
    NamesOwn (Parser.upTo step n) := by
  induction n with
  | zero => exact inferInstanceAs (NamesOwn (Pure.pure []))
  | succ n ih =>
    rw [Parser.upTo]
    refine @bind _ _ step _ _ _ fun result ↦ ?_
    cases result <;> infer_instance

instance many (step : Step (Option α)) [Skips step] [NamesOwn step] :
    NamesOwn (Parser.many step) := by
  unfold Parser.many
  infer_instance

instance afterComma (item : Step α) [Skips item] [NamesOwn item] :
    NamesOwn (Parser.afterComma item) := by
  unfold Parser.afterComma
  infer_instance

instance afterCommas (item : Step α) [Skips item] [NamesOwn (Parser.afterComma item)] :
    NamesOwn (Parser.afterCommas item) :=
  inferInstanceAs (NamesOwn (Parser.many (Parser.afterComma item)))

instance built (statement : Except Defect Stmt) : NamesOwn (Parser.built statement) where
  names parser _ := by cases statement <;> rintro after position parser' ⟨⟩

end NamesOwn

/-! ## Expressions -/

section

variable [NamesOwn (expressionWithin levels)]

/-- A required expression is named after the token before it. -/
theorem NamesTaken.requiredWith (h : origin.Ready) {after : String}
    (hafter : (origin.skip k).current.describe = after) :
    origin.NamesTaken (k + 1) (Parser.requiredWith (expressionWithin levels) after) := by
  have hreads := readsExpressions_expressionWithin levels (origin.skip (k + 1)) 0 (h.skip (k + 1))
    (Nat.zero_le _)
  exact (of_own h (expressionWithin levels)).bind_option hreads hafter rfl fun a _ ↦ pure a

namespace NamesOwn

instance afterComma_requiredWith :
    NamesOwn (Parser.afterComma (Parser.requiredWith (expressionWithin levels) "','")) where
  names parser h := by
    apply NamesTaken.get
    split
    · next hcomma =>
      have hname := Token.describe_of_char (Token.isChar_iff.mp hcomma)
      exact .bind_advance ((NamesTaken.requiredWith h hname).map some)
    · exact .pure none

instance argumentsWith : NamesOwn (Parser.argumentsWith (expressionWithin levels)) := by
  unfold Parser.argumentsWith
  refine @bind _ _ (expressionWithin levels) _ _ _ fun result ↦ ?_
  cases result <;> infer_instance

instance nameWith : NamesOwn (Parser.nameWith (expressionWithin levels)) := by
  unfold Parser.nameWith
  infer_instance

instance numberPrimary : NamesOwn Parser.numberPrimary := by
  unfold Parser.numberPrimary
  infer_instance

end NamesOwn

theorem NamesTaken.parenthesisedWith (h : origin.Ready)
    (hkind : (origin.skip k).current.kind = .char '(') :
    origin.NamesTaken k (Parser.parenthesisedWith (expressionWithin levels)) := by
  have hexpr : origin.NamesTaken (k + 1) (Parser.requiredWith (expressionWithin levels) "'('") :=
    requiredWith h (Token.describe_of_char hkind)
  exact bind_advance (hexpr.bind fun expr _ _ ↦
    of_own h (discard (expectChar ')') >>= fun _ ↦ Pure.pure expr))

namespace NamesOwn

instance primaryWith : NamesOwn (Parser.primaryWith (expressionWithin levels)) where
  names parser h := by
    apply NamesTaken.get
    rw [skip_zero, h.tables, Tables.find?_primaries]
    split
    · next form hform =>
      apply NamesTaken.map
      split at hform
      · obtain rfl := Option.some.inj hform
        exact .of_own h Parser.numberPrimary
      · obtain rfl := Option.some.inj hform
        exact .of_own h (Parser.nameWith (expressionWithin levels))
      · next c hkind =>
        split at hform
        · next hc =>
          obtain rfl := Option.some.inj hform
          exact .parenthesisedWith h (hc ▸ hkind)
        · cases hform
      · cases hform
    · split
      · exact .pure none
      · exact .fail fun _ ↦ by simp

instance nextOperation (rank : Nat) :
    NamesOwn (Parser.nextOperation (expressionWithin levels) rank) where
  names parser h := by
    apply NamesTaken.get
    split
    · exact .pure none
    · next operator power hoperator =>
      split
      · exact .pure none
      · have hname := Token.describe_of_char (h.kind_of_operator? hoperator).1
        have hreads := Reads.primaryWith (readsExpressions_expressionWithin levels) (h.skip 1)
          (Nat.zero_le _)
        have hprimary : parser.NamesTaken 1 (Parser.primaryWith (expressionWithin levels)) :=
          .of_own h _
        have hoperand : parser.NamesTaken 1
            (Parser.primaryWith (expressionWithin levels) >>= operandOf operator) :=
          hprimary.bind_option hreads hname rfl fun operand _ ↦ .pure operand
        exact .map _ (.bind_advance hoperand)

instance operationsWith (least : BindingPower) (first : Expr) :
    NamesOwn (Parser.operationsWith (expressionWithin levels) least first) := by
  rw [operationsWith_eq]
  infer_instance

end NamesOwn

end

instance NamesOwn.expressionWithin (levels : Nat) : NamesOwn (expressionWithin levels) := by
  induction levels with
  | zero => exact NamesOwn.tooDeep
  | succ levels ih =>
    rw [Parser.expressionWithin]
    refine @bind _ _ (Parser.primaryWith _) _ _ _ fun first ↦ ?_
    cases first <;> infer_instance

/-! ## Statements -/

/-- The last of the tokens taken. -/
theorem exists_of_ahead_concat {parser : Parser} {n : Nat} {front : List Symbol} {symbol : Symbol}
    (h : parser.ahead n = front ++ [symbol]) :
    ∃ m, n = m + 1 ∧ (parser.skip m).current.symbol = symbol := by
  obtain rfl : n = front.length + 1 := by simpa using length_of_ahead_eq h
  refine ⟨front.length, rfl, ?_⟩
  have hlength : front.length < (parser.ahead (front.length + 1)).length := by simp
  rw [← getElem_ahead parser hlength]
  simp [h]

instance NamesOwn.target : NamesOwn Parser.target := by
  unfold Parser.target
  infer_instance

/-- The targets of an assignment end with the sign after which its value is missed. -/
theorem NamesTaken.assignmentWith (h : origin.Ready) (hassignment : origin.startsAssignment) :
    origin.NamesTaken 0 (Parser.assignmentWith (expressionWithin levels)) := by
  have hreads : origin.Reads (many target) (Chain SpellsTarget) 0 :=
    .many (fun n ↦ ¬ (origin.skip n).startsAssignment) fun n ↦ .target (h.skip n)
  apply (of_own h (many target)).bind
  intro targets n htargets
  have hne := Reads.ne_nil_of_startsAssignment h hassignment htargets
  obtain ⟨m, hm, hchain⟩ := hreads.exists_of_ok htargets
  obtain rfl := skip_injective hm
  have hahead := hchain.eq_flatMap fun _ _ hword ↦ hword.2
  rw [← List.dropLast_append_getLast hne, List.flatMap_append, List.flatMap_singleton,
    List.append_cons] at hahead
  obtain ⟨m, rfl, hlast⟩ := exists_of_ahead_concat hahead
  have hvalue : origin.NamesTaken (m + 1) (Parser.requiredWith (expressionWithin levels) "'='") :=
    requiredWith h (Token.describe_of_char (congrArg Symbol.kind hlast))
  exact hvalue.bind fun value _ _ ↦
    of_own h (discard (expectChar ';') >>= fun _ ↦ Parser.built (Stmt.assign targets value))

theorem NamesTaken.resultWith (h : origin.Ready)
    (hkind : (origin.skip k).current.kind = .keyword .result) :
    origin.NamesTaken k (Parser.resultWith (expressionWithin levels)) := by
  have hvalue : origin.NamesTaken (k + 1)
      (Parser.requiredWith (expressionWithin levels) "'return'") :=
    requiredWith h (Token.describe_of_keyword hkind)
  exact bind_advance (hvalue.bind fun value _ _ ↦
    of_own h (discard (expectChar ';') >>= fun _ ↦ Pure.pure (Stmt.result value)))

section

variable (statements : Step Block) [Skips statements] [NamesOwn statements]

namespace NamesOwn

instance blockWith : NamesOwn (Parser.blockWith statements) := by
  unfold Parser.blockWith
  infer_instance

instance linkWith : NamesOwn (Parser.linkWith (Parser.expressionWithin levels) statements) where
  names parser h := by
    apply NamesTaken.bind_expectAs
    intro hkind
    have hcondition : parser.NamesTaken 1
        (Parser.requiredWith (Parser.expressionWithin levels) "'if'") :=
      .requiredWith h (Token.describe_of_keyword hkind)
    exact hcondition.bind fun condition _ _ ↦
      .of_own h (Parser.blockWith statements >>= fun body ↦ Pure.pure (⟨condition, body⟩ : Link))

instance nextLinkWith :
    NamesOwn (Parser.nextLinkWith (Parser.expressionWithin levels) statements) := by
  unfold Parser.nextLinkWith
  infer_instance

instance lastBlockWith : NamesOwn (Parser.lastBlockWith statements) := by
  unfold Parser.lastBlockWith
  infer_instance

instance conditionalWith :
    NamesOwn (Parser.conditionalWith (Parser.expressionWithin levels) statements) := by
  rw [conditionalWith_eq]
  infer_instance

end NamesOwn

/-- A required expression behind an expected token of one character. -/
theorem NamesTaken.expectChar_requiredWith (h : origin.Ready) {c : Char} {after : String}
    (hafter : TokenKind.describe (.char c) = after) {next : Expr → Step β}
    (hnext : ∀ expr n, origin.NamesTaken n (next expr)) :
    origin.NamesTaken k (discard (expectChar c) >>= fun _ ↦
      Parser.requiredWith (expressionWithin levels) after >>= next) :=
  bind_expectAs fun hkind ↦
    (requiredWith h ((Token.describe_of_char hkind).trans hafter)).bind fun expr n _ ↦ hnext expr n

namespace NamesOwn

instance loopWith : NamesOwn (Parser.loopWith (Parser.expressionWithin levels) statements) where
  names parser h := by
    apply NamesTaken.bind_advance
    apply (NamesTaken.of_own h (Functor.discard (Parser.expectChar '('))).bind
    intro _ _ _
    apply (NamesTaken.of_own h (Parser.expectIdentifier "identifier")).bind
    intro index _ _
    apply NamesTaken.expectChar_requiredWith h rfl
    intro initial _
    apply NamesTaken.expectChar_requiredWith h rfl
    intro condition _
    apply NamesTaken.expectChar_requiredWith h rfl
    intro step _
    exact .of_own h (Functor.discard (Parser.expectChar ')') >>= fun _ ↦
      Parser.blockWith statements >>= fun body ↦
        Parser.built (Stmt.forLoop index initial condition step body))

instance statementWith :
    NamesOwn (Parser.statementWith (Parser.expressionWithin levels) statements) where
  names parser h := by
    apply NamesTaken.get
    rw [skip_zero, h.tables, Tables.find?_statements]
    split
    · next form hform =>
      apply NamesTaken.map
      split at hform
      · next hkind =>
        obtain rfl := Option.some.inj hform
        exact @NamesTaken.resultWith parser 0 levels h hkind
      · obtain rfl := Option.some.inj hform
        exact .of_own h (Parser.conditionalWith (Parser.expressionWithin levels) statements)
      · obtain rfl := Option.some.inj hform
        exact .of_own h (Parser.loopWith (Parser.expressionWithin levels) statements)
      · cases hform
    · split
      · next hassignment => exact (NamesTaken.assignmentWith h hassignment).map some
      · apply (NamesTaken.of_own h (Parser.expressionWithin levels)).bind
        intro value _ _
        cases value with
        | none => exact .pure none
        | some value =>
          exact .of_own h (Functor.discard (Parser.expectChar ';') >>= fun _ ↦
            Pure.pure (some (Stmt.expression value)))

instance nextStatementWith :
    NamesOwn (Parser.nextStatementWith (Parser.expressionWithin levels) statements) := by
  unfold Parser.nextStatementWith
  infer_instance

end NamesOwn

end

namespace NamesOwn

instance statementsWithin (levels : Nat) : NamesOwn (Parser.statementsWithin levels) := by
  induction levels with
  | zero => exact tooDeep
  | succ levels ih =>
    rw [Parser.statementsWithin]
    infer_instance

instance statements : NamesOwn Parser.statements where
  names parser h := NamesTaken.of_apply rfl (.of_own h (Parser.statementsWithin parser.room))

instance block : NamesOwn Parser.block := blockWith Parser.statements

instance parameters : NamesOwn Parser.parameters := by
  unfold Parser.parameters
  infer_instance

instance prototype : NamesOwn Parser.prototype := by
  rw [prototype_eq]
  infer_instance

instance declaration : NamesOwn Parser.declaration := by
  unfold Parser.declaration
  infer_instance

instance definition : NamesOwn Parser.definition := by
  unfold Parser.definition
  infer_instance

instance run : NamesOwn Parser.run := by
  unfold Parser.run
  infer_instance

instance item : NamesOwn Parser.item := by
  unfold Parser.item
  refine @bind _ _ MonadState.get _ _ _ fun parser ↦ ?_
  split <;> infer_instance

end NamesOwn

end Parser

end ExprLang
