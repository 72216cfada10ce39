import ExprLang.Proofs.Failures
import ExprLang.Proofs.Levels

/-!
# After a Failed Step

A step that fails has taken the tokens before the one that it complains about, and nothing else of
the parser has changed.  So a client can look at the current token for the place of the failure, and
another step meets the limit of nesting just where the failed one has met it.
-/

namespace ExprLang

namespace Parser

variable {α β : Type}

/-- What a client composes of single tokens, steps of the grammar and levels of nesting, and with
any names for what it expects.  Failures are passed on.  Left out are steps that register something
on their way, that go on after a failure, or that make up a failure which the parser has not met:
the token that such a step has come to need not be the one of its failure. -/
inductive Operates : {α : Type} → Step α → Prop
  | grammar {α : Type} {step : Step α} : Skips step → Operates step
  | refuse {α : Type} (expected : String) : Operates (unexpected expected : Step α)
  | chain {α β : Type} {step : Step α} {next : α → Step β} : Operates step →
      (∀ a, Operates (next a)) → Operates (step >>= next)
  | nested {α : Type} {step : Step α} : Operates step → Operates (nested step)

/-- Actions with which no table is changed. -/
def Action.leavesTables : Action → Bool
  | nested _ action => action.leavesTables
  | registerPower _ _ | registerPrimary _ _ | registerStatement _ _ => false
  | _ => true

/-- The kind of token without which an action fails. -/
def Action.expected? : Action → Option TokenKind
  | expect kind | expectAs kind _ => some kind
  | expectChar c => some (.char c)
  | expectIdentifier _ => some .identifier
  | _ => none

namespace Operates

theorem expectAs (kind : TokenKind) (expected : String) :
    Operates (Parser.expectAs kind expected) := by
  refine chain (grammar .look) fun parser ↦ ?_
  split
  · exact grammar inferInstance
  · exact refuse expected

theorem expectIdentifier (expected : String) : Operates (Parser.expectIdentifier expected) := by
  refine chain (grammar .look) fun parser ↦ ?_
  split
  · exact grammar inferInstance
  · exact refuse expected

theorem answer {step : Step α} (h : Operates step) (f : α → Answer) :
    Operates (step >>= fun a ↦ pure (f a)) :=
  chain h fun _ ↦ grammar inferInstance

theorem nestedTimes {step : Step α} (h : Operates step) (levels : Nat) :
    Operates (Parser.nestedTimes levels step) := by
  induction levels with
  | zero => exact h
  | succ levels ih => exact nested ih

theorem action {action : Action} (h : action.leavesTables) : Operates action.step := by
  induction action with
  | expect kind => exact (expectAs kind _).answer .token
  | expectAs kind expected => exact (expectAs kind expected).answer .token
  | expectChar c => exact (expectAs (.char c) _).answer .token
  | expectIdentifier expected => exact (expectIdentifier expected).answer .name
  | unexpected expected => exact refuse expected
  | nested levels action ih => exact (ih h).nestedTimes levels
  | registerPower kind power => cases h
  | registerPrimary kind form => cases h
  | registerStatement kind form => cases h
  | _ =>
    simp only [Action.step]
    exact grammar inferInstance

end Operates

@[simp]
theorem leaving_atDepth (depth : Nat) (result : EStateM.Result Halt Parser α) :
    leaving (atDepth depth result) = { leaving result with depth := depth } := by
  cases result <;> rfl

/-- A step one level deeper takes the same tokens, and the level is closed in any case. -/
theorem exists_skip_nested {step : Step α}
    (h : ∀ parser, ∃ n, leaving (step parser) = parser.skip n) (parser : Parser) :
    ∃ n, leaving (nested step parser) = parser.skip n := by
  unfold nested
  split
  · obtain ⟨n, hn⟩ := h { parser with depth := parser.depth + 1 }
    refine ⟨n, ?_⟩
    rw [leaving_atDepth, hn, skip_with_depth, ← skip_depth parser n]
  · exact ⟨0, rfl⟩

/-- Nothing changes but for the tokens that are taken. -/
theorem Operates.exists_skip {step : Step α} (h : Operates step) (parser : Parser) :
    ∃ n, leaving (step parser) = parser.skip n := by
  induction h generalizing parser with
  | @grammar _ step _ => exact Skips.exists_skip_apply step parser
  | refuse => exact ⟨0, rfl⟩
  | chain _ _ ihstep ihnext => exact exists_skip_bind (ihstep parser) ihnext
  | nested _ ih => exact exists_skip_nested ih parser

/-- What a failure tells about the token at which it is met. -/
structure StandsOn (failure : Diagnostic) (parser : Parser) : Prop where
  position : failure.position = parser.position
  malformed : (∃ token, failure.cause = .malformedNumber token) ↔
    parser.current.kind = .malformedNumber

/-- The step has come to a sound token, or it stands on its failure. -/
inductive Concludes : EStateM.Result Halt Parser α → Prop
  | ok {a : α} {parser : Parser} : parser.current.kind ≠ .malformedNumber → Concludes (.ok a parser)
  | failure {failure : Diagnostic} {parser : Parser} : StandsOn failure parser →
      Concludes (.error (.failure failure) parser)
  | defect {defect : Defect} {parser : Parser} : Concludes (.error (.defect defect) parser)

theorem Accounted.concludes {result : EStateM.Result Halt Parser α} (h : Accounted result) :
    Concludes result := by
  cases result with
  | ok a parser => exact .ok h
  | error halt parser =>
    cases h with
    | malformed hkind => exact .failure ⟨rfl, fun _ ↦ hkind, fun _ ↦ ⟨_, rfl⟩⟩
    | defect => exact .defect
    | @grammatical cause hkind hcause =>
      refine .failure ⟨rfl, ?_, fun h ↦ absurd h hkind⟩
      rintro ⟨token, rfl : cause = _⟩
      cases hcause

theorem Concludes.atDepth {result : EStateM.Result Halt Parser α} (h : Concludes result)
    (depth : Nat) : Concludes (atDepth depth result) := by
  cases h with
  | ok hkind => exact .ok hkind
  | failure h => exact .failure ⟨h.position, h.malformed⟩
  | defect => exact .defect

theorem Operates.concludes {step : Step α} (h : Operates step) {parser : Parser}
    (hkind : parser.current.kind ≠ .malformedNumber) : Concludes (step parser) := by
  induction h generalizing parser with
  | @grammar _ step _ => exact (Skips.accounted step hkind).concludes
  | refuse expected =>
    refine .failure ⟨rfl, ?_, fun h ↦ absurd h hkind⟩
    rintro ⟨token, ⟨⟩⟩
  | @chain _ _ step next _ _ ihstep ihnext =>
    have hstep := ihstep hkind
    rw [bind_apply]
    cases hresult : step parser with
    | ok a parser' =>
      rw [hresult] at hstep
      cases hstep with
      | ok hkind' => exact ihnext a hkind'
    | error halt parser' =>
      rw [hresult] at hstep
      cases hstep with
      | failure h => exact .failure h
      | defect => exact .defect
  | nested _ ih =>
    unfold Parser.nested
    split
    · exact (@ih { parser with depth := parser.depth + 1 } hkind).atDepth parser.depth
    · exact (Skips.accounted tooDeep hkind).concludes

theorem Action.fails_in_place {action : Action} {kind : TokenKind} {parser : Parser}
    (hexpected : action.expected? = some kind) (hkind : parser.current.kind ≠ kind) :
    ∃ failure, action.step parser = .error (.failure failure) parser := by
  have hexpect (expected : String) :
      Parser.expectAs kind expected parser = Parser.unexpected expected parser := by
    rw [expectAs_apply, if_neg hkind]
  -- every one of these actions is a step that expects a token and then yields an answer
  cases action with
  | expect kind' =>
    obtain rfl := Option.some.inj hexpected
    exact ⟨_, bind_of_error _ (hexpect _)⟩
  | expectAs kind' expected =>
    obtain rfl := Option.some.inj hexpected
    exact ⟨_, bind_of_error _ (hexpect expected)⟩
  | expectChar c =>
    obtain rfl := Option.some.inj hexpected
    exact ⟨_, bind_of_error _ (hexpect _)⟩
  | expectIdentifier expected =>
    obtain rfl := Option.some.inj hexpected
    have hidentifier :
        Parser.expectIdentifier expected parser = Parser.unexpected expected parser := by
      rw [expectIdentifier_apply, if_neg hkind]
    exact ⟨_, bind_of_error _ hidentifier⟩
  | _ => cases hexpected

theorem nested_fails_in_place (step : Step α) {parser : Parser}
    (h : parser.options.maxNestingDepth ≤ parser.depth) :
    ∃ failure, nested step parser = .error (.failure failure) parser :=
  ⟨_, if_neg (not_lt.mpr h)⟩

theorem leaving_depth {step : Step α} (h : Operates step ∨ Routine step) (parser : Parser) :
    (leaving (step parser)).depth = parser.depth := by
  rcases h with hoperates | hroutine
  · obtain ⟨n, hn⟩ := hoperates.exists_skip parser
    rw [hn, skip_depth]
  · obtain ⟨n, tables, hn⟩ := Routine.moves step parser
    rw [hn]
    exact skip_depth parser n

theorem Operates.of_failure {step : Step α} (h : Operates step) {parser parser' : Parser}
    {failure : Diagnostic} (hkind : parser.current.kind ≠ .malformedNumber)
    (hfailure : step parser = .error (.failure failure) parser') :
    StandsOn failure parser' ∧ ∃ n, parser' = parser.skip n := by
  obtain ⟨n, hn⟩ := h.exists_skip parser
  have hconcludes := h.concludes hkind
  rw [hfailure] at hn hconcludes
  cases hconcludes with
  | failure hstands => exact ⟨hstands, n, hn⟩

/-- An operation that fails leaves the parser standing on the failure, and but for the tokens that
were taken the parser is as before.  In particular no level is left open: levels are counted up and
down again, and every expression and every statement list opens one.  An operation that expects
another token or has no level left changes nothing at all.  Steps that register something or go on
after a failure are not meant, also where a client runs them a level deeper; but for these too the
levels are closed. -/
theorem failure_stands_at_current :
    (∀ action : Action, action.leavesTables → Operates action.step) ∧
    (∀ (α : Type) (step : Step α) (parser parser' : Parser) (failure : Diagnostic),
      Operates step → parser.current.kind ≠ .malformedNumber →
      step parser = .error (.failure failure) parser' →
      failure.position = ⟨parser'.current.start, parser.lexer.file⟩ ∧
      ((∃ token, failure.cause = .malformedNumber token) ↔
        parser'.current.kind = .malformedNumber) ∧
      parser'.depth = parser.depth ∧ parser'.tables = parser.tables ∧
      parser'.options = parser.options) ∧
    (expression = nested (expressionOver expression) ∧
      statements = nested (statementsOver expression statements) ∧
      ∀ (α : Type) (step : Step α), Operates step ∨ Routine step →
        nested step = counted step ∧ ∀ parser, (leaving (step parser)).depth = parser.depth) ∧
    (∀ (action : Action) (kind : TokenKind) (parser : Parser), action.expected? = some kind →
      parser.current.kind ≠ kind →
      ∃ failure, action.step parser = .error (.failure failure) parser) ∧
    ∀ (α : Type) (step : Step α) (parser : Parser),
      parser.options.maxNestingDepth ≤ parser.depth →
      ∃ failure, nested step parser = .error (.failure failure) parser := by
  refine ⟨fun _ ↦ Operates.action, ?_, ⟨expression_eq_nested, statements_eq_nested, ?_⟩,
    fun _ _ _ ↦ Action.fails_in_place, fun _ step _ ↦ nested_fails_in_place step⟩
  · intro α step parser parser' failure hstep hkind hfailure
    obtain ⟨hstands, n, rfl⟩ := hstep.of_failure hkind hfailure
    refine ⟨?_, hstands.malformed, skip_depth parser n, skip_tables parser n,
      skip_options parser n⟩
    rw [hstands.position, position, skip_lexer, Lexer.after_file]
  · exact fun α step hstep ↦ ⟨nested_eq_counted (leaving_depth hstep), leaving_depth hstep⟩

/-- The failure with which a step ends. -/
def failure? : EStateM.Result Halt Parser α → Option Diagnostic
  | .error (.failure failure) _ => some failure
  | _ => none

theorem eq_of_failure? {result : EStateM.Result Halt Parser α} {failure : Diagnostic}
    (h : failure? result = some failure) :
    result = .error (.failure failure) (leaving result) := by
  unfold failure? at h
  split at h
  · rw [Option.some.inj h, leaving_error]
  · cases h

theorem failure_stands_at_current_inside_call :
    let parser := start "f(x, 2.5.1);" .default
    let action := Action.nested 2 (.read .statement)
    let closer := Action.expectChar ')'
    let bound := { parser with depth := 128 }
    ∃ failure parser', action.leavesTables ∧ Operates action.step ∧
      parser.current.kind ≠ .malformedNumber ∧
      action.step parser = .error (.failure failure) parser' ∧
      (failure.position = ⟨parser'.current.start, parser.lexer.file⟩ ∧
        ((∃ token, failure.cause = .malformedNumber token) ↔
          parser'.current.kind = .malformedNumber) ∧
        parser'.depth = parser.depth ∧ parser'.tables = parser.tables ∧
        parser'.options = parser.options) ∧
      failure = ⟨.malformedNumber "2.5.1", ⟨5, "shell"⟩⟩ ∧
      (closer.expected? = some (.char ')') ∧ parser.current.kind ≠ .char ')' ∧
        ∃ failure, closer.step parser = .error (.failure failure) parser) ∧
      (bound.options.maxNestingDepth ≤ bound.depth ∧
        ∃ failure, nested action.step bound = .error (.failure failure) bound) := by
  intro parser action closer bound
  obtain ⟨hactions, hfailure, -, hexpected, hnested⟩ := failure_stands_at_current
  have haction : Operates action.step := hactions action rfl
  have hkind : parser.current.kind ≠ .malformedNumber := by decide
  have hhalts : failure? (action.step parser) =
      some ⟨.malformedNumber "2.5.1", ⟨5, "shell"⟩⟩ := by decide +kernel
  have hstep := eq_of_failure? hhalts
  have hcloser : parser.current.kind ≠ .char ')' := by decide
  have hbound : bound.options.maxNestingDepth ≤ bound.depth := le_rfl
  exact ⟨_, _, rfl, haction, hkind, hstep, hfailure _ _ _ _ _ haction hkind hstep, rfl,
    ⟨rfl, hcloser, hexpected closer _ parser rfl hcloser⟩, hbound, hnested _ _ bound hbound⟩

end Parser

end ExprLang
