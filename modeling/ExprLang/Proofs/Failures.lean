import ExprLang.Proofs.CorrectPrefix

/-!
# Where Steps Fail

A step that starts at a sound token ends at one, unless it halts.  It halts at the current token of
the parser that it leaves, and it calls the number there malformed exactly when it is.  So a parse
and the reading of all tokens meet the same malformed number, unless the parse has failed before.
-/

namespace ExprLang

variable {α β : Type}

namespace Parser

/-- Why a step halts at the current token. -/
inductive Refusal (parser : Parser) : Halt → Prop
  | malformed : parser.current.kind = .malformedNumber →
      Refusal parser (.failure ⟨.malformedNumber parser.current.lexeme, parser.position⟩)
  | grammatical {cause : Cause} : parser.current.kind ≠ .malformedNumber →
      cause.IsRefusal → Refusal parser (.failure ⟨cause, parser.position⟩)
  | defect {defect : Defect} : parser.current.kind ≠ .malformedNumber →
      Refusal parser (.defect defect)

/-- The parser stands at a sound token, or the step has halted for a reason that is there. -/
def Accounted : EStateM.Result Halt Parser α → Prop
  | .ok _ parser => parser.current.kind ≠ .malformedNumber
  | .error halt parser => Refusal parser halt

theorem Skips.accounted (step : Step α) [h : Skips step] {parser : Parser}
    (hkind : parser.current.kind ≠ .malformedNumber) : Accounted (step parser) := by
  induction h generalizing parser with
  | result => exact hkind
  | look => exact hkind
  | take =>
    rw [advance_apply]
    split
    · next hmalformed => exact .malformed hmalformed
    · next hsound => exact hsound
  | refuse hrefusal => exact .grammatical hkind hrefusal
  | giveUp => exact .defect hkind
  | @chain _ _ step next _ _ ihstep ihnext =>
    have hstep := ihstep hkind
    rw [bind_apply]
    cases hresult : step parser with
    | error halt parser' => rwa [hresult] at hstep
    | ok a parser' =>
      rw [hresult] at hstep
      exact ihnext a hstep

theorem refusal_of_error (step : Step α) [Skips step] {parser parser' : Parser} {halt : Halt}
    (hkind : parser.current.kind ≠ .malformedNumber) (h : step parser = .error halt parser') :
    Refusal parser' halt := by
  have haccounted := Skips.accounted step hkind
  rwa [h] at haccounted

/-- What a failure tells about the current token. -/
theorem Refusal.of_failure {parser : Parser} {cause : Cause} {position : Position}
    (h : Refusal parser (.failure ⟨cause, position⟩)) :
    if parser.current.kind = .malformedNumber then cause = .malformedNumber parser.current.lexeme
    else cause.IsRefusal := by
  cases h with
  | malformed hmalformed => rw [if_pos hmalformed]
  | grammatical hsound hrefusal => rwa [if_neg hsound]

/-- A parse fails at a token of the source, behind tokens that start some program. -/
theorem exists_failure {source : String} {options : Options} {halt : Halt}
    (h : (parse source options).result = .error halt) :
    ∃ n cause, halt = .failure ⟨cause, ((start source options).skip n).position⟩ ∧
      Completable options ((start source options).ahead n) ∧
      if ((start source options).skip n).current.kind = .malformedNumber then
        cause = .malformedNumber ((start source options).skip n).current.lexeme
      else cause.IsRefusal := by
  rcases parse_error_cases h with ⟨hmalformed, rfl⟩ | ⟨hsound, parser', hitems⟩
  · refine ⟨0, _, rfl, ⟨[], [], spellsUnit_nil⟩, ?_⟩
    rw [skip_zero, if_pos hmalformed]
  · have hrefusal := refusal_of_error (many item) hsound hitems
    obtain ⟨n, cause, rfl, rfl, hviable, -⟩ := (reads_start source options).exists_of_error hitems
    exact ⟨n, cause, rfl, hviable, hrefusal.of_failure⟩

theorem kind_of_completable {source : String} {options : Options} {m n : Nat}
    (h : Completable options ((start source options).ahead n)) (hlt : m < n) :
    ((start source options).skip m).current.kind ≠ .malformedNumber := by
  have hlength : m < ((start source options).ahead n).length := by rwa [length_ahead]
  have hproper := h.proper _ (List.getElem_mem hlength)
  rw [getElem_ahead] at hproper
  exact hproper.2

end Parser

theorem tokenize_eq_error_iff_find? {source : String} {file : Option String}
    {diagnostic : Diagnostic} : tokenize source file = .error diagnostic ↔ ∃ token,
      (Lexer.ofSource source file).tokens.find? (fun token ↦ token.kind = .malformedNumber) =
        some token ∧
      diagnostic = ⟨.malformedNumber token.lexeme,
        ⟨token.start, (Lexer.ofSource source file).file⟩⟩ := by
  rw [tokenize]
  cases hfind : (Lexer.ofSource source file).tokens.find? (·.kind = .malformedNumber) with
  | none => simp
  | some token => simp [eq_comm]

/-- Reading all tokens fails at the first malformed number. -/
theorem tokenize_eq_error_iff {source : String} {file : Option String} {diagnostic : Diagnostic} :
    tokenize source file = .error diagnostic ↔
      ∃ n < (Lexer.ofSource source file).tokens.length,
        ((Lexer.ofSource source file).token n).kind = .malformedNumber ∧
        (∀ m < n, ((Lexer.ofSource source file).token m).kind ≠ .malformedNumber) ∧
        diagnostic = ⟨.malformedNumber ((Lexer.ofSource source file).token n).lexeme,
          ⟨((Lexer.ofSource source file).token n).start, (Lexer.ofSource source file).file⟩⟩ := by
  rw [tokenize_eq_error_iff_find?]
  set lexer := Lexer.ofSource source file
  constructor
  · rintro ⟨token, hfind, rfl⟩
    obtain ⟨hkind, n, hn, rfl, hfirst⟩ := List.find?_eq_some_iff_getElem.mp hfind
    refine ⟨n, hn, ?_, fun m hm ↦ ?_, by rw [lexer.tokens_getElem n hn]⟩
    · simpa [lexer.tokens_getElem n hn] using hkind
    · have hother := hfirst m hm
      rw [lexer.tokens_getElem m (hm.trans hn)] at hother
      simpa using hother
  · rintro ⟨n, hn, hkind, hfirst, rfl⟩
    refine ⟨lexer.token n, ?_, rfl⟩
    rw [List.find?_eq_some_iff_getElem]
    refine ⟨by simpa using hkind, n, hn, lexer.tokens_getElem n hn, fun m hm ↦ ?_⟩
    rw [lexer.tokens_getElem m (hm.trans hn)]
    simpa using hfirst m hm

open ExprLang.Parser in
theorem exists_tokens_of_parse {source : String} {options : Options} {unit : SourceUnit}
    (h : (parse source options).result = .ok unit) :
    ∃ tokens, tokenize source options.fileName = .ok tokens := by
  cases htokenize : tokenize source options.fileName with
  | ok tokens => exact ⟨tokens, rfl⟩
  | error diagnostic =>
    obtain ⟨n, hn, hkind, -⟩ := tokenize_eq_error_iff.mp htokenize
    obtain ⟨depth, -, hderives⟩ := exists_derived_of_parse h
    refine absurd hkind (hderives.kind_ne_malformedNumber (Token.symbol (Lexer.token _ n)) ?_)
    rw [← Lexer.tokens_getElem _ n hn, sourceSymbols, ← tokens_ofSource source options.fileName]
    exact List.mem_map_of_mem (List.getElem_mem hn)

open ExprLang.Parser in
/-- Where reading all tokens fails, the parse fails in the same way or at an earlier token. -/
theorem parse_of_tokenize_eq_error {source : String} {options : Options} {diagnostic : Diagnostic}
    (h : tokenize source options.fileName = .error diagnostic) :
    ∃ failure, (parse source options).result = .error (.failure failure) ∧
      (failure = diagnostic ∨ failure.cause.stage = .grammatical ∧
        failure.position.file = diagnostic.position.file ∧
        ∃ token ∈ (Lexer.ofSource source options.fileName).tokens,
          token.start = failure.position.offset ∧ token.start < diagnostic.position.offset) := by
  obtain ⟨n, hn, hkind, hfirst, rfl⟩ := tokenize_eq_error_iff.mp h
  cases hparse : (parse source options).result with
  | ok unit =>
    obtain ⟨tokens, hok⟩ := exists_tokens_of_parse hparse
    rw [h] at hok
    cases hok
  | error halt =>
    obtain ⟨m, cause, rfl, hcompletable, hcause⟩ := exists_failure hparse
    rw [skip_start_current] at hcause
    rw [skip_start_position]
    refine ⟨_, rfl, ?_⟩
    -- the tokens before the failure are sound, so it is not behind the malformed number
    have hle : m ≤ n := by
      by_contra hlt
      apply kind_of_completable hcompletable (not_le.mp hlt)
      rwa [skip_start_current]
    rcases hle.eq_or_lt with rfl | hlt
    · rw [if_pos hkind] at hcause
      rw [hcause]
      exact .inl rfl
    · rw [if_neg (hfirst m hlt)] at hcause
      refine .inr ⟨hcause.stage, rfl, _, List.getElem_mem (hlt.trans hn), ?_⟩
      rw [Lexer.tokens_getElem]
      exact ⟨rfl, Lexer.token_start_lt _ hlt hn⟩

open ExprLang.Parser in
theorem tokenize_of_lexical_failure {source : String} {options : Options} {failure : Diagnostic}
    (h : (parse source options).result = .error (.failure failure))
    (hstage : failure.cause.stage = .lexical) :
    tokenize source options.fileName = .error failure := by
  obtain ⟨n, cause, hhalt, hcompletable, hcause⟩ := exists_failure h
  obtain rfl := Halt.failure.inj hhalt
  have hlt := lt_length_of_proper hcompletable.proper
  rw [length_sourceSymbols source options.fileName] at hlt
  split at hcause
  · next hmalformed =>
    rw [skip_start_current] at hmalformed
    rw [tokenize_eq_error_iff]
    refine ⟨n, hlt, hmalformed, fun m hm ↦ ?_, ?_⟩
    · rw [← skip_start_current source options]
      exact kind_of_completable hcompletable hm
    · rw [hcause, skip_start_position, skip_start_current]
  · rw [hcause.stage] at hstage
    cases hstage

/-- Reading all tokens fails at a malformed number exactly when the parse does, unless the parse has
failed for its grammar at an earlier token. -/
theorem lexical_failures_agree (source : String) (options : Options) :
    (∀ diagnostic, tokenize source options.fileName = .error diagnostic →
      (∃ word, diagnostic.cause = .malformedNumber word) ∧
      ∃ failure, (parse source options).result = .error (.failure failure) ∧
        (failure = diagnostic ∨ failure.cause.stage = .grammatical ∧
          failure.position.file = diagnostic.position.file ∧
          ∃ token ∈ (Lexer.ofSource source options.fileName).tokens,
            token.start = failure.position.offset ∧ token.start < diagnostic.position.offset)) ∧
    (∀ failure, (parse source options).result = .error (.failure failure) →
      failure.cause.stage = .lexical → tokenize source options.fileName = .error failure) ∧
    ∀ unit, (parse source options).result = .ok unit →
      ∃ tokens, tokenize source options.fileName = .ok tokens := by
  refine ⟨fun diagnostic htokenize ↦ ⟨?_, parse_of_tokenize_eq_error htokenize⟩,
    fun failure ↦ tokenize_of_lexical_failure, fun unit ↦ exists_tokens_of_parse⟩
  obtain ⟨n, -, -, -, rfl⟩ := tokenize_eq_error_iff.mp htokenize
  exact ⟨_, rfl⟩

end ExprLang
