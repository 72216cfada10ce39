import ExprLang.Proofs.Failures
import ExprLang.Proofs.MissingExpressions
import ExprLang.Proofs.RenamedSources

/-!
# What Diagnostics Say

The diagnostic of a parse stands at a token of the source and tells the truth about it: what it
quotes is the text of that token or of the one before it.
-/

namespace ExprLang

/-- What a cause claims about the tokens of a source and the one at which a parse with the given
limit has failed, whose index is given. -/
inductive Cause.Tells (tokens : List Token) (limit k : Nat) (token : Token) : Cause → Prop
  | malformedNumber : token.kind = .malformedNumber →
      (∀ earlier ∈ tokens.take k, earlier.kind ≠ .malformedNumber) →
      Tells tokens limit k token (.malformedNumber token.lexeme)
  | unexpectedToken (expected : String) :
      Tells tokens limit k token (.unexpectedToken expected token.describe)
  | unknownExpression : Tells tokens limit k token (.unknownExpression token.describe)
  | expectedExpression {j : Nat} {previous : Token} : k = j + 1 → tokens[j]? = some previous →
      token.kind ∈ [.char '}', .char ')', .char ';', .endOfInput] →
      Tells tokens limit k token (.expectedExpression previous.describe)
  | nestingTooDeep : Tells tokens limit k token (.nestingTooDeep limit)

namespace Cause

variable {tokens : List Token} {limit k : Nat} {token : Token} {cause : Cause}

theorem Tells.stage_ne_structural (h : cause.Tells tokens limit k token) :
    cause.stage ≠ .structural := by
  cases h <;> simp [stage]

theorem stage_eq_lexical_iff (cause : Cause) :
    cause.stage = .lexical ↔ ∃ text, cause = .malformedNumber text := by
  cases cause <;> simp [stage]

end Cause

namespace Parser

variable {source : String} {options : Options}

theorem twins_start_self (source : String) (options : Options) :
    (start source options).Twins id (start source options) := by
  apply twins_start_of_rename
  have hid : Symbol.rename id = id := funext Symbol.rename_id
  rw [hid, List.map_id]

/-- A failure while the items are read quotes the token at which it stands. -/
theorem exists_quoting {halt : Halt} {parser' : Parser}
    (h : many item (start source options) = .error halt parser') :
    ∃ (n : Nat) (cause : Cause), parser' = (start source options).skip n ∧
      halt = .failure ⟨cause.quoting ((start source options).skip n).current,
        ((start source options).skip n).position⟩ := by
  rcases (twins_start_self source options).items rfl rfl with
    ⟨_, _, hitems, -⟩ | ⟨n, cause, hitems, -⟩
  · rw [hitems] at h
    cases h
  · rw [hitems] at h
    obtain ⟨rfl, rfl⟩ := EStateM.Result.error.inj h
    exact ⟨n, cause, rfl, rfl⟩

theorem kind_of_mem_take {k : Nat} (h : Completable options ((start source options).ahead k)) :
    ∀ earlier ∈ (Lexer.ofSource source options.fileName).tokens.take k,
      earlier.kind ≠ .malformedNumber := by
  intro earlier hearlier
  obtain ⟨i, hi, rfl⟩ := List.mem_take_iff_getElem.mp hearlier
  have hlt : i < k := by omega
  have hkind := kind_of_completable h hlt
  rwa [skip_start_current, ← Lexer.tokens_getElem _ i (by omega)] at hkind

theorem getElem?_tokens_of_completable {k : Nat}
    (h : Completable options ((start source options).ahead k)) :
    (Lexer.ofSource source options.fileName).tokens[k]? =
      some ((start source options).skip k).current := by
  have hlt := lt_length_of_proper h.proper
  rw [length_sourceSymbols source options.fileName] at hlt
  rw [List.getElem?_eq_getElem hlt, Lexer.tokens_getElem, skip_start_current]

/-- A failure stands behind tokens that start some program, and its cause tells the truth. -/
theorem exists_tells {halt : Halt} (h : (parse source options).result = .error halt) :
    ∃ (n : Nat) (cause : Cause),
      halt = .failure ⟨cause, ((start source options).skip n).position⟩ ∧
      Completable options ((start source options).ahead n) ∧
      cause.Tells (Lexer.ofSource source options.fileName).tokens options.maxNestingDepth n
        ((start source options).skip n).current := by
  rcases parse_error_cases h with ⟨hmalformed, rfl⟩ | ⟨hsound, parser', hitems⟩
  · exact ⟨0, _, rfl, ⟨[], [], spellsUnit_nil⟩, .malformedNumber hmalformed (by simp)⟩
  have hrefusal := refusal_of_error (many item) hsound hitems
  obtain ⟨n, cause, rfl, rfl⟩ := exists_quoting hitems
  obtain ⟨m, quoting, hskip, hhalt, hcompletable, hnesting⟩ :=
    (reads_start source options).exists_of_error hitems
  obtain rfl := skip_injective hskip
  obtain rfl : cause.quoting _ = quoting := congrArg Diagnostic.cause (Halt.failure.inj hhalt)
  refine ⟨n, _, rfl, hcompletable, ?_⟩
  have hcause := hrefusal.of_failure
  cases cause with
  | malformedNumber text =>
    split at hcause
    · next hkind => exact .malformedNumber hkind (kind_of_mem_take hcompletable)
    · cases hcause
  | unexpectedToken expected found => exact .unexpectedToken expected
  | unknownExpression text => exact .unknownExpression
  | expectedExpression after =>
    have hnames := NamesTaken.of_own (ready_start source options) (k := 0) (many item)
    obtain ⟨hcloser, j, hj, rfl⟩ := hnames after _ _ hitems
    obtain rfl := skip_injective hj
    have hbefore : Completable options ((start source options).ahead j) := by
      rw [ahead_add] at hcompletable
      exact hcompletable.of_append
    exact .expectedExpression rfl (getElem?_tokens_of_completable hbefore)
      (by simpa [isCloser_iff] using hcloser)
  | nestingTooDeep limit =>
    obtain ⟨heq, -⟩ := hnesting rfl
    rw [heq]
    exact .nestingTooDeep
  | emptyCompound context => split at hcause <;> cases hcause

end Parser

open ExprLang.Parser in
/-- A parse fails with a diagnostic that stands at a token of the source and tells the truth about
it. -/
theorem diagnostic_tells (source : String) (options : Options) (halt : Halt)
    (h : (parse source options).result = .error halt) :
    ∃ (cause : Cause) (k : Nat) (token : Token),
      halt = .failure ⟨cause, ⟨token.start, options.fileName.getD "shell"⟩⟩ ∧
      (Lexer.ofSource source options.fileName).tokens[k]? = some token ∧
      cause.Tells (Lexer.ofSource source options.fileName).tokens options.maxNestingDepth k token ∧
      cause.stage ≠ .structural ∧
      (cause.stage = .lexical ↔ ∃ text, cause = .malformedNumber text) := by
  obtain ⟨k, cause, rfl, hcompletable, htells⟩ := exists_tells h
  refine ⟨cause, k, _, ?_, getElem?_tokens_of_completable hcompletable, htells,
    htells.stage_ne_structural, cause.stage_eq_lexical_iff⟩
  rw [skip_start_position, skip_start_current]
  rfl

theorem diagnostic_tells_open_parenthesis :
    let source := "("
    let halt := Halt.failure ⟨.expectedExpression "'('", ⟨1, "shell"⟩⟩
    (parse source .default).result = .error halt ∧
      ∃ (cause : Cause) (k : Nat) (token : Token),
        halt = .failure ⟨cause, ⟨token.start, "shell"⟩⟩ ∧
        (Lexer.ofSource source none).tokens[k]? = some token ∧
        cause.Tells (Lexer.ofSource source none).tokens 128 k token ∧
        cause.stage ≠ .structural ∧
        (cause.stage = .lexical ↔ ∃ text, cause = .malformedNumber text) := by
  have hresult : (parse "(" .default).result =
      .error (.failure ⟨.expectedExpression "'('", ⟨1, "shell"⟩⟩) := rfl
  exact ⟨hresult, diagnostic_tells _ .default _ hresult⟩

end ExprLang
