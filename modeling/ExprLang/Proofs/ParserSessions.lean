import ExprLang.Parser.Session
import ExprLang.Proofs.Acceptance

/-!
# Parser Sessions

Whatever a client does with a parser, and whether or not it succeeds, the parser takes tokens one
after the other and never goes back.  So its current token has an index in the stream of the source,
and the index determines what the lexer behind it holds.
-/

namespace ExprLang

/-- The payload that a token leaves if it is a word. -/
def Token.word (token : Token) : String :=
  match token.kind with
  | .identifier | .keyword _ => token.lexeme
  | _ => ""

namespace Lexer

/-- The value of the last well-formed number among a number of tokens, or zero. -/
def numberAmong (lexer : Lexer) (n : Nat) : Binary64 :=
  let tokens := (List.range n).map lexer.token
  match tokens.reverse.find? fun token ↦ token.kind = .number with
  | some token => .ofLiteral token.lexeme.toList
  | none => .zero

theorem numberAmong_succ (lexer : Lexer) (n : Nat) : lexer.numberAmong (n + 1) =
    if (lexer.token n).kind = .number then .ofLiteral (lexer.token n).lexeme.toList
    else lexer.numberAmong n := by
  rw [numberAmong, List.range_succ, List.map_append, List.reverse_append]
  by_cases hkind : (lexer.token n).kind = .number
  · simp [hkind]
  · simp [hkind, numberAmong]

theorem after_number {lexer : Lexer} (h : lexer.number = .zero) (n : Nat) :
    (lexer.after n).number = lexer.numberAmong n := by
  induction n with
  | zero => exact h
  | succ n ih =>
    rw [after_succ_eq_next, numberAmong_succ, ← ih]
    simp only [token, next, String.toList_ofList]

theorem after_word (lexer : Lexer) (n : Nat) :
    (lexer.after (n + 1)).word = (lexer.token n).word := by
  rw [after_succ_eq_next]
  rfl

end Lexer

namespace Parser

variable {α β : Type}

/-- Runs a step and goes on even if it halts. -/
def attempt (step : Step α) : Step (Except Halt α) := fun parser ↦
  match step parser with
  | .ok a parser => .ok (.ok a) parser
  | .error halt parser => .ok (.error halt) parser

/-- What a client may do with a parser: take actions, look at their results, give up or go on after
a failure, and do all this a level deeper. -/
class inductive Routine : {α : Type} → Step α → Prop
  | action (action : Action) : Routine action.step
  | result {α : Type} (a : α) : Routine (pure a : Step α)
  | look : Routine (get : Step Parser)
  | giveUp {α : Type} (halt : Halt) : Routine (throw halt : Step α)
  | chain {α β : Type} {step : Step α} {next : α → Step β} : Routine step →
      (∀ a, Routine (next a)) → Routine (step >>= next)
  | attempt {α : Type} {step : Step α} : Routine step → Routine (attempt step)
  | nested {α : Type} {step : Step α} : Routine step → Routine (nested step)

/-- The parser after each of the steps in turn, whether or not they halt. -/
def afterAll : List (Step Answer) → Parser → Parser
  | [], parser => parser
  | step :: steps, parser => afterAll steps (leaving (step parser))

theorem unit_eq : unit = do
    let items ← many item
    return .ofItems (← get).options items := by
  funext parser
  rw [bind_apply, many_item_eq, Reading.outcome, unit]
  cases (items parser).ending <;> rfl

namespace Skips

instance unit : Skips Parser.unit := by
  rw [unit_eq]
  infer_instance

instance primary : Skips Parser.primary := primaryWith Parser.expression

instance statement : Skips Parser.statement := statementWith Parser.expression Parser.statements

instance requiredExpression (after : String) : Skips (Parser.requiredExpression after) :=
  requiredWith Parser.expression after

instance runDefinition : Skips Parser.runDefinition := by
  unfold Parser.runDefinition
  infer_instance

instance form (form : Form) : Skips form.step := by
  cases form <;> unfold Form.step <;> infer_instance

end Skips

/-- Some tokens have been taken, and the tables may be others. -/
def Moves (parser parser' : Parser) : Prop :=
  ∃ n tables, parser' = { parser.skip n with tables := tables }

theorem skip_with_tables (parser : Parser) (tables : Tables) (n : Nat) :
    ({ parser with tables := tables } : Parser).skip n =
      { parser.skip n with tables := tables } := by
  induction n generalizing parser with
  | zero => rfl
  | succ n ih => exact ih parser.shifted

theorem skip_with_depth (parser : Parser) (depth n : Nat) :
    ({ parser with depth := depth } : Parser).skip n = { parser.skip n with depth := depth } := by
  induction n generalizing parser with
  | zero => rfl
  | succ n ih => exact ih parser.shifted

namespace Moves

variable {parser parser' parser'' : Parser}

theorem refl (parser : Parser) : parser.Moves parser := ⟨0, parser.tables, rfl⟩

theorem trans (h : parser.Moves parser') (h' : parser'.Moves parser'') :
    parser.Moves parser'' := by
  obtain ⟨m, tables, rfl⟩ := h
  obtain ⟨n, tables', rfl⟩ := h'
  exact ⟨m + n, tables', by rw [skip_with_tables, skip_skip]⟩

theorem of_skips (step : Step α) [Skips step] (parser : Parser) :
    parser.Moves (leaving (step parser)) := by
  obtain ⟨n, hn⟩ := Skips.exists_skip_apply step parser
  exact ⟨n, parser.tables, by rw [hn, ← skip_tables parser n]⟩

theorem taken_le (h : parser.Moves parser') : parser.taken ≤ parser'.taken := by
  obtain ⟨n, tables, rfl⟩ := h
  rw [skip_taken]
  exact Nat.le_add_right _ _

theorem bind {step : Step α} {next : α → Step β} (hstep : parser.Moves (leaving (step parser)))
    (hnext : ∀ (a : α) (parser' : Parser), parser'.Moves (leaving (next a parser'))) :
    parser.Moves (leaving ((step >>= next) parser)) := by
  rw [bind_apply]
  cases hresult : step parser with
  | ok a parser' =>
    rw [hresult] at hstep
    exact hstep.trans (hnext a parser')
  | error halt parser' => rwa [hresult] at hstep

/-- A level deeper the same tokens are taken, and the level is closed again in any case. -/
theorem nested {step : Step α} (h : ∀ parser : Parser, parser.Moves (leaving (step parser)))
    (parser : Parser) : parser.Moves (leaving (Parser.nested step parser)) := by
  have hdeeper := h { parser with depth := parser.depth + 1 }
  unfold Parser.nested
  split
  · obtain ⟨n, tables, hn⟩ := hdeeper
    rw [skip_with_depth] at hn
    refine ⟨n, tables, ?_⟩
    cases hresult : step { parser with depth := parser.depth + 1 } with
    | ok a parser' =>
      rw [hresult, leaving_ok] at hn
      rw [atDepth, leaving_ok, hn, ← skip_depth parser n]
    | error halt parser' =>
      rw [hresult, leaving_error] at hn
      rw [atDepth, leaving_error, hn, ← skip_depth parser n]
  · exact refl parser

theorem nestedTimes {step : Step α} (h : ∀ parser : Parser, parser.Moves (leaving (step parser)))
    (levels : Nat) (parser : Parser) :
    parser.Moves (leaving (Parser.nestedTimes levels step parser)) := by
  induction levels generalizing parser with
  | zero => exact h parser
  | succ levels ih => exact nested ih parser

theorem changeTables (change : Tables → Tables) (parser : Parser) :
    parser.Moves (leaving (Parser.changeTables change parser)) :=
  ⟨0, change parser.tables, rfl⟩

theorem unexpected (expected : String) (parser : Parser) :
    parser.Moves (leaving (Parser.unexpected expected parser : EStateM.Result Halt Parser α)) :=
  refl parser

/-- A client may expect tokens under any name. -/
theorem expectAs (kind : TokenKind) (expected : String) (parser : Parser) :
    parser.Moves (leaving (Parser.expectAs kind expected parser)) := by
  rw [expectAs_apply]
  split
  · exact of_skips Parser.advance parser
  · exact unexpected expected parser

theorem expectIdentifier (expected : String) (parser : Parser) :
    parser.Moves (leaving (Parser.expectIdentifier expected parser)) := by
  rw [expectIdentifier_apply]
  split
  · exact of_skips (discard Parser.advance >>= fun _ ↦ pure parser.lexer.word) parser
  · exact unexpected expected parser

theorem action (action : Action) (parser : Parser) :
    parser.Moves (leaving (action.step parser)) := by
  induction action generalizing parser with
  | expect kind => exact (expectAs kind _ parser).bind fun _ ↦ refl
  | expectAs kind expected => exact (expectAs kind expected parser).bind fun _ ↦ refl
  | expectChar c => exact (expectAs (.char c) _ parser).bind fun _ ↦ refl
  | expectIdentifier expected => exact (expectIdentifier expected parser).bind fun _ ↦ refl
  | unexpected expected => exact unexpected expected parser
  | nested levels action ih => exact nestedTimes ih levels parser
  | registerPower kind power => exact changeTables _ parser
  | registerPrimary kind form => exact changeTables _ parser
  | registerStatement kind form => exact changeTables _ parser
  | _ =>
    simp only [Action.step]
    exact of_skips _ parser

end Moves

theorem Routine.moves (step : Step α) [h : Routine step] (parser : Parser) :
    parser.Moves (leaving (step parser)) := by
  induction h generalizing parser with
  | action action => exact Moves.action action parser
  | result => exact Moves.refl parser
  | look => exact Moves.refl parser
  | giveUp => exact Moves.refl parser
  | chain _ _ ihstep ihnext => exact (ihstep parser).bind ihnext
  | @attempt _ step _ ih =>
    have hstep := ih parser
    unfold Parser.attempt
    cases hresult : step parser <;> rwa [hresult] at hstep
  | nested _ ih => exact Moves.nested ih parser

/-- The current token is the one of the given index in the stream of tokens, and the lexer stands
behind it with its payloads. -/
structure StandsAt (stream : Lexer) (k : Nat) (parser : Parser) : Prop where
  current : parser.current = stream.token k
  cursor : parser.lexer.offset = (stream.token k).stop
  peekKind : parser.peekKind = (stream.token (k + 1)).kind
  word : parser.lexer.word = (stream.token k).word
  number : parser.lexer.number = stream.numberAmong (k + 1)

theorem standsAt_skip_start (source : String) (options : Options) (tables : Tables) (k : Nat) :
    StandsAt (Lexer.ofSource source options.fileName) k
      { (start source options).skip k with tables := tables } := by
  set stream := Lexer.ofSource source options.fileName
  have hlexer : ((start source options).skip k).lexer = stream.after (k + 1) := by
    rw [skip_lexer, Lexer.after_succ]
    rfl
  refine ⟨skip_start_current source options k, ?_, ?_, ?_, ?_⟩
  · simp only [hlexer, Lexer.after_succ_eq_next]
    rfl
  · simp only [Parser.peekKind, hlexer]
    rfl
  · simp only [hlexer, Lexer.after_word]
  · simp only [hlexer]
    exact Lexer.after_number rfl (k + 1)

/-- The index of the current token is the number of tokens taken. -/
theorem Moves.standsAt {source : String} {options : Options} {parser : Parser}
    (h : (start source options).Moves parser) :
    StandsAt (Lexer.ofSource source options.fileName) parser.taken parser := by
  obtain ⟨k, tables, rfl⟩ := h
  rw [skip_taken, start_taken, Nat.zero_add]
  exact standsAt_skip_start source options tables k

theorem afterAll_append (steps steps' : List (Step Answer)) (parser : Parser) :
    afterAll (steps ++ steps') parser = afterAll steps' (afterAll steps parser) := by
  induction steps generalizing parser with
  | nil => rfl
  | cons step steps ih => exact ih (leaving (step parser))

theorem afterAll_moves {steps : List (Step Answer)} (h : ∀ step ∈ steps, Routine step)
    (parser : Parser) : parser.Moves (afterAll steps parser) := by
  induction steps generalizing parser with
  | nil => exact Moves.refl parser
  | cons step steps ih =>
    rw [List.forall_mem_cons] at h
    have hstep := h.1
    exact (Routine.moves step parser).trans (ih h.2 _)

/-- A parser and its lexer stay in step through every session: after any number of steps the current
token has an index in the stream, never smaller than before, and the lexer stands behind it. -/
theorem session_in_step (source : String) (options : Options) (parser : Parser)
    (hparser : ofSource source options = .ok parser) (steps : List (Step Answer))
    (hsteps : ∀ step ∈ steps, Routine step) :
    ∃ index : Nat → Nat, index 0 = 0 ∧ Monotone index ∧ ∀ n,
      StandsAt (Lexer.ofSource source options.fileName) (index n)
        (afterAll (steps.take n) parser) := by
  have hstart : parser = start source options := by
    rw [ofSource_eq] at hparser
    split at hparser
    · cases hparser
    · exact (Except.ok.inj hparser).symm
  subst hstart
  have htake (n : Nat) : ∀ step ∈ steps.take n, Routine step :=
    fun step hstep ↦ hsteps step (List.mem_of_mem_take hstep)
  refine ⟨fun n ↦ (afterAll (steps.take n) (start source options)).taken, rfl, ?_, fun n ↦ ?_⟩
  · apply monotone_nat_of_le_succ
    intro n
    have hnext : ∀ step ∈ (steps.drop n).take 1, Routine step :=
      fun step hstep ↦ hsteps step (List.mem_of_mem_drop (List.mem_of_mem_take hstep))
    rw [List.take_add, afterAll_append]
    exact (afterAll_moves hnext _).taken_le
  · exact (afterAll_moves (htake n) _).standsAt

theorem session_in_step_past_failures :
    let source := "a = 1 + 2.5.1 b"
    let parser := start source .default
    let steps := [Action.step (.read .statement), (Action.registerPrimary (.char ')') .name).step,
      nested (attempt Action.advance.step >>= fun _ ↦ Action.peek.step)]
    ofSource source .default = .ok parser ∧ (∀ step ∈ steps, Routine step) ∧
      ∃ index : Nat → Nat, index 0 = 0 ∧ Monotone index ∧ ∀ n,
        StandsAt (Lexer.ofSource source none) (index n) (afterAll (steps.take n) parser) := by
  intro source parser steps
  have hparser : ofSource source .default = .ok parser := by
    rw [ofSource_eq, if_neg (by decide)]
  have hsteps : ∀ step ∈ steps, Routine step := by
    rw [List.forall_mem_cons, List.forall_mem_cons, List.forall_mem_singleton]
    exact ⟨.action _, .action _, .nested (.chain (.attempt (.action _)) fun _ ↦ .action _)⟩
  exact ⟨hparser, hsteps, session_in_step source .default parser hparser steps hsteps⟩

end Parser

end ExprLang
