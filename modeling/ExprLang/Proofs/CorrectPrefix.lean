import ExprLang.Proofs.Acceptance

/-!
# The Place of an Error

A failure that is not for want of levels stands at the first token at which the tokens of the source
stop being the start of some program.  The tokens before it can be completed, and with it they
cannot.
-/

namespace ExprLang

/-- The symbols with a blank in front of each. -/
def spelling (symbols : List Symbol) : List Char :=
  symbols.flatMap fun symbol ↦ ' ' :: symbol.lexeme.toList

theorem IsLexeme.before_spelling {kind : TokenKind} {lexeme : List Char}
    (h : IsLexeme [] kind lexeme) (symbols : List Symbol) :
    IsLexeme (spelling symbols) kind lexeme := by
  have hends (p : Char → Bool) (hp : p ' ' = false) : Ends p (spelling symbols) := by
    cases symbols with
    | nil => simp [spelling, Ends]
    | cons symbol symbols => simp [spelling, Ends, hp]
  exact h.of_ends (fun _ ↦ hends _ rfl) fun _ ↦ hends _ rfl

theorem tokenizes_spelling {symbols : List Symbol} (h : ∀ symbol ∈ symbols, symbol.Proper)
    (offset : Nat) : ∃ tokens, Tokenizes offset (spelling symbols) tokens ∧
      tokens.map Token.symbol = symbols ++ [.endOfInput] := by
  induction symbols generalizing offset with
  | nil => exact ⟨_, .finish .empty, rfl⟩
  | cons symbol symbols ih =>
    rw [List.forall_mem_cons] at h
    obtain ⟨tokens, htokens, hsymbols⟩ := ih h.2 _
    have hgap : Gap (symbol.lexeme.toList ++ spelling symbols) [' '] :=
      .blank (by simp [blanks]) .empty
    refine ⟨_, .token hgap (h.1.1.before_spelling symbols) htokens, ?_⟩
    rw [List.map_cons, hsymbols, Token.symbol, String.ofList_toList]
    rfl

/-- Whatever symbols there are, some source has them as its tokens. -/
theorem exists_sourceSymbols_eq {symbols : List Symbol} (h : ∀ symbol ∈ symbols, symbol.Proper) :
    ∃ source, sourceSymbols source = symbols ++ [.endOfInput] := by
  obtain ⟨tokens, htokens, hsymbols⟩ := tokenizes_spelling h 0
  refine ⟨String.ofList (spelling symbols), ?_⟩
  have heq := tokens_of_tokenizes htokens
    (Lexer.ofSource (String.ofList (spelling symbols)) none) rfl (by simp [Lexer.ofSource])
  rw [sourceSymbols, ← heq, hsymbols]

/-- The symbols start some program. -/
def Completable (options : Options) (symbols : List Symbol) : Prop :=
  Viable (fun items word ↦ SpellsUnit options items (word ++ [.endOfInput])) symbols

theorem Completable.terminal {options : Options} {symbols : List Symbol}
    (h : Completable options symbols) : ∀ symbol ∈ symbols, symbol.Terminal := by
  obtain ⟨items, rest, depth, hderives⟩ := h
  obtain ⟨front, hfront, hterminal⟩ := hderives.exists_terminal
  obtain ⟨rfl, -⟩ := List.append_inj' hfront rfl
  exact fun symbol hsymbol ↦ hterminal symbol (List.mem_append_left rest hsymbol)

theorem Completable.proper {options : Options} {symbols : List Symbol}
    (h : Completable options symbols) : ∀ symbol ∈ symbols, symbol.Proper :=
  fun symbol hsymbol ↦ (h.terminal symbol hsymbol).proper

/-- What can be completed is the start of the tokens of a source that is accepted with enough
levels. -/
theorem Completable.exists_source {options : Options} {symbols : List Symbol}
    (h : Completable options symbols) : ∃ source depth, symbols <+: sourceSymbols source ∧
      ∀ limit ≥ depth, ∃ unit,
        (parse source { options with maxNestingDepth := limit }).result = .ok unit := by
  obtain ⟨items, rest, depth, hderives⟩ := h
  obtain ⟨front, hfront, hproper⟩ := hderives.exists_proper
  obtain ⟨rfl, -⟩ := List.append_inj' hfront rfl
  obtain ⟨source, hsource⟩ := exists_sourceSymbols_eq hproper
  have hderived : (SourceUnit.ofItems options items).Derived options depth
      (sourceSymbols source) := by
    rw [hsource]
    exact ⟨rfl, hderives⟩
  refine ⟨source, depth, ?_, fun limit hlimit ↦ ⟨.ofItems options items, ?_⟩⟩
  · rw [hsource, List.append_assoc]
    exact List.prefix_append _ _
  · have hok := parse_of_derived (hderived.of_limit limit)
    rwa [if_pos hlimit] at hok

namespace Parser

variable {source : String} {options : Options}

/-- The parser does not fail on what starts like an accepted source, unless for want of levels. -/
theorem le_taken_of_accepted {source' : String} {options' : Options} {unit : SourceUnit} {n : Nat}
    (hok : (parse source' options').result = .ok unit)
    (hstarts : (start source options).ahead n <+: sourceSymbols source') :
    StopsTooDeep (many item (start source options)) ∨
      (∃ items parser', many item (start source options) = .ok items parser') ∨
      n ≤ (leaving (many item (start source options))).taken := by
  obtain ⟨depth, -, hderives⟩ := exists_derived_of_parse hok
  have hproper := hderives.kind_ne_malformedNumber
  obtain ⟨items, front, hword, -, -, hitems⟩ := hderives.recognized
  have hresult := hitems.recognizes (ready_start source options) n (hword ▸ hstarts)
    fun symbol hsymbol ↦ hproper symbol (hstarts.subset hsymbol)
  rcases hresult with ⟨-, hdeep⟩ | hresult
  · exact .inl hdeep
  · right
    split at hresult
    · exact .inl ⟨items, _, hresult.2⟩
    · rw [start_taken, Nat.zero_add] at hresult
      exact .inr hresult

theorem start_kind_of_accepted {source' : String} {options' : Options} {unit : SourceUnit}
    (hok : (parse source' options').result = .ok unit)
    (hstarts : (start source options).ahead 1 <+: sourceSymbols source') :
    (start source options).current.kind ≠ .malformedNumber := by
  obtain ⟨depth, -, hderives⟩ := exists_derived_of_parse hok
  apply hderives.kind_ne_malformedNumber (start source options).current.symbol
  exact hstarts.subset (by simp)

end Parser

open ExprLang.Parser in
/-- A failure stands at the current token after some tokens that can be completed. -/
theorem exists_of_parse_error {source : String} {options : Options} {halt : Halt}
    (h : (parse source options).result = .error halt) :
    ∃ n cause, halt = .failure ⟨cause, ((start source options).skip n).position⟩ ∧
      Completable options ((start source options).ahead n) ∧
      (cause.isNesting →
        cause = .nestingTooDeep options.maxNestingDepth ∧ options.maxNestingDepth ≤ n + 1) ∧
      (cause.isNesting = false → ∀ (source' : String) (options' : Options) (unit : SourceUnit),
        (start source options).ahead (n + 1) <+: sourceSymbols source' →
        (parse source' options').result ≠ .ok unit) := by
  rcases parse_error_cases h with ⟨hmalformed, rfl⟩ | ⟨-, parser', hitems⟩
  · refine ⟨0, _, rfl, ⟨[], [], spellsUnit_nil⟩, by simp [Cause.isNesting], ?_⟩
    exact fun _ source' options' unit hstarts hok ↦ start_kind_of_accepted hok hstarts hmalformed
  · obtain ⟨n, cause, rfl, rfl, hviable, hcause⟩ :=
      (reads_start source options).exists_of_error hitems
    rw [start_taken, start_options] at hcause
    refine ⟨n, cause, rfl, hviable, fun hnesting ↦ ⟨(hcause hnesting).1, ?_⟩, ?_⟩
    · have hbound := (hcause hnesting).2
      omega
    · intro hnesting source' options' unit hstarts hok
      rcases le_taken_of_accepted hok hstarts with ⟨_, _, _, hdeep⟩ | ⟨items, parser', heq⟩ | hle
      · rw [hitems] at hdeep
        obtain ⟨hhalt, -⟩ := EStateM.Result.error.inj hdeep
        obtain ⟨rfl, -⟩ := Diagnostic.mk.inj (Halt.failure.inj hhalt)
        cases hnesting
      · rw [hitems] at heq
        cases heq
      · rw [hitems, leaving_error, skip_taken, start_taken] at hle
        omega

theorem Cause.isNesting_eq_false {cause : Cause} (h : ∀ limit, cause ≠ .nestingTooDeep limit) :
    cause.isNesting = false := by
  cases cause with
  | nestingTooDeep limit => exact absurd rfl (h limit)
  | _ => rfl

/-- A failure stands at the first token that no program has after the tokens before it. -/
theorem error_at_first_wrong_token (source : String) (options : Options) (halt : Halt)
    (h : (parse source options).result = .error halt)
    (hhalt : ∀ limit position, halt ≠ .failure ⟨.nestingTooDeep limit, position⟩) :
    ∃ (cause : Cause) (position : Position), halt = .failure ⟨cause, position⟩ ∧
      ∃ k < (Lexer.ofSource source options.fileName).tokens.length,
        (∀ (j : Nat) (token : Token),
          (Lexer.ofSource source options.fileName).tokens[j]? = some token →
            (token.start = position.offset ↔ j = k)) ∧
        (∃ source' depth, (sourceSymbols source).take k <+: sourceSymbols source' ∧
          ∀ limit ≥ depth, ∃ unit,
            (parse source' { options with maxNestingDepth := limit }).result = .ok unit) ∧
        ∀ (source' : String) (options' : Options) (unit : SourceUnit),
          (sourceSymbols source).take (k + 1) <+: sourceSymbols source' →
          (parse source' options').result ≠ .ok unit := by
  obtain ⟨k, cause, rfl, hcompletable, -, hwrong⟩ := exists_of_parse_error h
  have hcause : cause.isNesting = false := by
    apply Cause.isNesting_eq_false
    intro limit
    rintro rfl
    exact hhalt limit _ rfl
  replace hwrong := hwrong hcause
  have hlt := Parser.lt_length_of_proper hcompletable.proper
  have hlength := length_sourceSymbols source options.fileName
  rw [Parser.ahead_start source options hlt.le] at hcompletable
  rw [Parser.ahead_start source options hlt] at hwrong
  refine ⟨cause, _, rfl, k, hlength ▸ hlt, ?_, hcompletable.exists_source, hwrong⟩
  intro j token htoken
  obtain ⟨hj, rfl⟩ := List.getElem?_eq_some_iff.mp htoken
  rw [Parser.skip_start_position, Lexer.tokens_getElem _ j hj]
  constructor
  · intro heq
    rcases Nat.lt_trichotomy j k with hjk | hjk | hjk
    · exact absurd heq (Lexer.token_start_lt _ hjk (hlength ▸ hlt)).ne
    · exact hjk
    · exact absurd heq (Lexer.token_start_lt _ hjk hj).ne'
  · rintro rfl
    rfl

/-- The diagnostic of a parse that refuses its source.  Unlike results, it can be compared. -/
def Parse.diagnostic? (run : Parse) : Option Diagnostic :=
  match run.result with
  | .error (.failure diagnostic) => some diagnostic
  | _ => none

theorem Parse.result_of_diagnostic? {run : Parse} {diagnostic : Diagnostic}
    (h : run.diagnostic? = some diagnostic) : run.result = .error (.failure diagnostic) := by
  rw [diagnostic?] at h
  split at h
  · next hresult => rw [hresult, Option.some.inj h]
  · cases h

/-- The sum lacks its right side, inside of an argument, of a condition and of a function. -/
theorem error_inside_open_constructs :
    let source := "fn f(x) \x7b if g(y, (x + )"
    let halt := Halt.failure ⟨.expectedExpression "'+'", ⟨23, "shell"⟩⟩
    (parse source .default).result = .error halt ∧
      (∀ limit position, halt ≠ .failure ⟨.nestingTooDeep limit, position⟩) ∧
      (∃ source' depth, (sourceSymbols source).take 14 <+: sourceSymbols source' ∧
        ∀ limit ≥ depth, ∃ unit,
          (parse source' { Options.default with maxNestingDepth := limit }).result = .ok unit) ∧
      ∀ (source' : String) (options' : Options) (unit : SourceUnit),
        (sourceSymbols source).take 15 <+: sourceSymbols source' →
        (parse source' options').result ≠ .ok unit := by
  intro source halt
  have hresult : (parse source .default).result = .error halt :=
    Parse.result_of_diagnostic? (by decide +kernel)
  have hhalt : ∀ limit position, halt ≠ .failure ⟨.nestingTooDeep limit, position⟩ := by
    simp [halt]
  have htoken : (Lexer.ofSource source Options.default.fileName).tokens[14]? =
      some ⟨.char ')', ")", 23, 24⟩ := by decide +kernel
  obtain ⟨cause, position, heq, k, -, hplace, hcompletable, hwrong⟩ :=
    error_at_first_wrong_token source .default halt hresult hhalt
  obtain ⟨-, rfl⟩ := Diagnostic.mk.inj (Halt.failure.inj heq)
  obtain rfl : 14 = k := (hplace 14 _ htoken).mp rfl
  exact ⟨hresult, hhalt, hcompletable, hwrong⟩

end ExprLang
