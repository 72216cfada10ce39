import ExprLang.Proofs.Diagnoses
import ExprLang.Proofs.Views

/-!
# Reports on One Line

A diagnostic quotes what the source holds, and yet is reported on one line and viewed on five.  Line
feeds and carriage returns are blanks, so no token holds one, and what is expected in the place of a
token is named on one line by every step of the grammar.
-/

namespace ExprLang

open Text

/-- A text between two others, which messages put around it. -/
theorem oneLine_between {text : String} (before after : String) (h : OneLine text)
    (hbefore : OneLine before := by decide) (hafter : OneLine after := by decide) :
    OneLine (before ++ text ++ after) := OneLine.append _ _

theorem ne_of_mem_toDigits {n : Nat} (h : n < 160) :
    ∀ d ∈ Nat.toDigits 16 n, d ≠ '\n' ∧ d ≠ '\r' := by
  have hdigits : ∀ n < 160, (Nat.toDigits 16 n).all (fun d ↦ d != '\n' && d != '\r') = true := by
    decide +kernel
  simpa [List.all_eq_true] using hdigits n h

theorem ne_of_mem_escaped {c d : Char} (h : d ∈ escaped c) : d ≠ '\n' ∧ d ≠ '\r' := by
  have hpair {a b : Char} (ha : a ≠ '\n' ∧ a ≠ '\r') (hb : b ≠ '\n' ∧ b ≠ '\r')
      (hd : d ∈ [a, b]) : d ≠ '\n' ∧ d ≠ '\r' := by
    rw [List.mem_pair] at hd
    rcases hd with rfl | rfl <;> assumption
  unfold escaped at h
  split at h
  · next hc => rcases hc with rfl | rfl <;> exact hpair (by decide) (by decide) h
  split at h
  · exact hpair (by decide) (by decide) h
  split at h
  · exact hpair (by decide) (by decide) h
  split at h
  · exact hpair (by decide) (by decide) h
  split at h
  · exact hpair (by decide) (by decide) h
  split at h
  · next hcontrol =>
    have hlt : c.toNat < 160 := by
      simp only [isControl, Bool.or_eq_true, Bool.and_eq_true, decide_eq_true_eq] at hcontrol
      omega
    simp only [List.mem_append, List.mem_cons, List.not_mem_nil, or_false] at h
    rcases h with ((rfl | rfl | rfl) | h) | rfl
    · decide
    · decide
    · decide
    · exact ne_of_mem_toDigits hlt d h
    · decide
  · next hreturn hfeed _ _ =>
    rw [List.mem_singleton] at h
    subst h
    exact ⟨hfeed, hreturn⟩

/-- Quoting keeps a text on one line. -/
instance oneLine_quoted (text : String) : OneLine (quoted text) where
  ne d hd := by
    rw [quoted, String.toList_ofList, List.mem_append, List.mem_cons, List.mem_flatMap,
      List.mem_singleton] at hd
    rcases hd with (rfl | ⟨c, -, hd⟩) | rfl
    · decide
    · exact ne_of_mem_escaped hd
    · decide

theorem ne_of_isBlank_eq_false {c : Char} (h : isBlank c = false) : c ≠ '\n' ∧ c ≠ '\r' := by
  constructor <;> rintro rfl <;> cases h

theorem not_isBlank_of_isAlphanum {c : Char} (h : c.isAlphanum = true) : isBlank c = false := by
  rw [Char.isAlphanum, Bool.or_eq_true] at h
  rcases h with h | h
  · exact (Bool.or_eq_false_iff.mp (not_separator_of_isAlpha h)).1
  · exact (Bool.or_eq_false_iff.mp (not_separator_of_isDigit h)).1

theorem not_isBlank_of_isNumeric {c : Char} (h : isNumeric c = true) : isBlank c = false := by
  rw [isNumeric, Bool.or_eq_true, decide_eq_true_eq] at h
  rcases h with h | rfl
  · exact (Bool.or_eq_false_iff.mp (not_separator_of_isDigit h)).1
  · rfl

namespace IsLexeme

variable {rest lexeme : List Char} {kind : TokenKind}

/-- A lexeme holds no blanks. -/
theorem isBlank_eq_false (h : IsLexeme rest kind lexeme) : ∀ c ∈ lexeme, isBlank c = false := by
  cases h with
  | keyword hword => exact fun c hc ↦ not_isBlank_of_isAlphanum (hword.isAlphanum c hc)
  | identifier hword => exact fun c hc ↦ not_isBlank_of_isAlphanum (hword.isAlphanum c hc)
  | number hrun => exact fun c hc ↦ not_isBlank_of_isNumeric (hrun.isNumeric c hc)
  | malformedNumber hrun => exact fun c hc ↦ not_isBlank_of_isNumeric (hrun.isNumeric c hc)
  | char _ _ hblank => simpa [mem_blanks_iff] using hblank

theorem oneLine (h : IsLexeme rest kind lexeme) : OneLine (String.ofList lexeme) where
  ne c hc := ne_of_isBlank_eq_false (h.isBlank_eq_false c (by rwa [String.toList_ofList] at hc))

end IsLexeme

namespace Token

/-- The text of the token, as it stands and as messages speak of it, is on one line. -/
structure IsOneLine (token : Token) : Prop where
  lexeme : OneLine token.lexeme
  describe : OneLine token.describe

theorem isOneLine_of_isLexeme {token : Token} {rest : List Char}
    (h : IsLexeme rest token.kind token.lexeme.toList) : token.IsOneLine := by
  have hlexeme : OneLine token.lexeme := by simpa using h.oneLine
  refine ⟨hlexeme, ?_⟩
  rw [Token.describe]
  cases hkind : token.kind with
  | endOfInput => exact (by decide : OneLine "end of input")
  | identifier => exact oneLine_between "identifier '" "'" hlexeme
  | number => exact oneLine_between "number '" "'" hlexeme
  | malformedNumber => exact oneLine_between "number '" "'" hlexeme
  | char c =>
    rw [hkind] at h
    have hc : OneLine c.toString := by
      rw [← String.ofList_toList (s := token.lexeme), h.eq_of_char] at hlexeme
      exact hlexeme
    exact oneLine_between "'" "'" hc
  | keyword keyword => exact TokenKind.oneLine_describe_keyword keyword

end Token

theorem Tokenizes.isOneLine {offset : Nat} {text : List Char} {tokens : List Token}
    (h : Tokenizes offset text tokens) : ∀ token ∈ tokens, token.IsOneLine := by
  induction h with
  | finish =>
    rw [List.forall_mem_singleton]
    exact ⟨(by decide : OneLine ""), (by decide : OneLine "end of input")⟩
  | token _ hlexeme _ ih =>
    rw [List.forall_mem_cons]
    exact ⟨Token.isOneLine_of_isLexeme (by simpa using hlexeme), ih⟩

namespace Cause

variable {cause : Cause}

/-- The texts that a cause quotes. -/
def texts : Cause → List String
  | malformedNumber token => [token]
  | unexpectedToken expected found => [expected, found]
  | unknownExpression token => [token]
  | expectedExpression after => [after]
  | nestingTooDeep _ => []
  | emptyCompound context => [context]

theorem oneLine_message (h : ∀ text ∈ cause.texts, OneLine text) : OneLine cause.message := by
  cases cause with
  | malformedNumber token => exact oneLine_append_iff.mpr ⟨by decide, oneLine_quoted token⟩
  | unexpectedToken expected found =>
    rw [texts, List.forall_mem_cons, List.forall_mem_singleton] at h
    exact oneLine_append_iff.mpr ⟨oneLine_between "expected " ", found " h.1, h.2⟩
  | unknownExpression token =>
    exact oneLine_append_iff.mpr ⟨by decide, h token (List.mem_singleton_self token)⟩
  | expectedExpression after =>
    exact oneLine_append_iff.mpr ⟨by decide, h after (List.mem_singleton_self after)⟩
  | nestingTooDeep limit =>
    exact oneLine_between "nesting exceeds the limit of " " levels" (oneLine_toString limit)
  | emptyCompound context =>
    exact oneLine_append_iff.mpr ⟨h context (List.mem_singleton_self context), by decide⟩

theorem oneLine_tip (h : ∀ text ∈ cause.texts, OneLine text) : ∀ tip ∈ cause.tip, OneLine tip := by
  cases cause with
  | malformedNumber token =>
    rintro _ ⟨⟩
    exact oneLine_between _ _ (h token (List.mem_singleton_self token))
  | unexpectedToken expected found =>
    rw [texts, List.forall_mem_cons, List.forall_mem_singleton] at h
    rintro _ ⟨⟩
    exact oneLine_append_iff.mpr ⟨oneLine_between "Expected " ", found " h.1, h.2⟩
  | unknownExpression token =>
    rintro _ ⟨⟩
    decide
  | expectedExpression after =>
    rintro _ ⟨⟩
    exact oneLine_append_iff.mpr ⟨by decide, h after (List.mem_singleton_self after)⟩
  | nestingTooDeep limit =>
    rintro _ ⟨⟩
    exact oneLine_between _ _ (oneLine_toString limit)
  | emptyCompound context => rintro _ ⟨⟩

theorem oneLine_name (cause : Cause) : OneLine cause.name := by
  cases cause with
  | malformedNumber => exact (by decide : OneLine "MalformedNumber")
  | unexpectedToken => exact (by decide : OneLine "UnexpectedToken")
  | unknownExpression => exact (by decide : OneLine "UnknownExpression")
  | expectedExpression => exact (by decide : OneLine "ExpectedExpression")
  | nestingTooDeep => exact (by decide : OneLine "NestingTooDeep")
  | emptyCompound => exact (by decide : OneLine "EmptyCompoundStatement")

theorem oneLine_headline (h : ∀ text ∈ cause.texts, OneLine text) : OneLine cause.headline := by
  rw [headline]
  cases hcause : cause.tip with
  | none => exact oneLine_name cause
  | some tip =>
    have hname : OneLine (cause.name ++ " (") :=
      oneLine_append_iff.mpr ⟨oneLine_name cause, by decide⟩
    exact oneLine_between _ _ (oneLine_tip h tip hcause) hname

end Cause

section

variable {source : String} {options : Options}

open ExprLang.Parser in
/-- What a failed parse quotes is the text of tokens and the text of what was expected. -/
theorem oneLine_texts_of_parse {cause : Cause} {position : Position}
    (h : (parse source options).result = .error (.failure ⟨cause, position⟩)) :
    position.file = options.fileName.getD "shell" ∧ ∀ text ∈ cause.texts, OneLine text := by
  obtain ⟨k, _, hhalt, hcompletable, htells⟩ := exists_tells h
  obtain ⟨rfl, rfl⟩ := Diagnostic.mk.inj (Halt.failure.inj hhalt)
  obtain ⟨_, _, hhalt', -, hcause⟩ := exists_failure h
  obtain ⟨rfl, -⟩ := Diagnostic.mk.inj (Halt.failure.inj hhalt')
  refine ⟨by rw [skip_start_position]; rfl, ?_⟩
  have htokens {j : Nat} {token : Token}
      (htoken : (Lexer.ofSource source options.fileName).tokens[j]? = some token) :
      token.IsOneLine :=
    (tokenizes_tokens _).isOneLine token (List.mem_of_getElem? htoken)
  have htoken := htokens (getElem?_tokens_of_completable hcompletable)
  cases htells with
  | malformedNumber => exact List.forall_mem_singleton.mpr htoken.lexeme
  | unexpectedToken expected =>
    have hexpected : OneLine expected := by
      split at hcause
      · cases hcause
      · exact hcause
    exact List.forall_mem_cons.mpr ⟨hexpected, List.forall_mem_singleton.mpr htoken.describe⟩
  | unknownExpression => exact List.forall_mem_singleton.mpr htoken.describe
  | expectedExpression _ hprevious =>
    exact List.forall_mem_singleton.mpr (htokens hprevious).describe
  | nestingTooDeep => exact List.forall_mem_nil _

theorem oneLine_texts_of_tokenize {file : Option String} {cause : Cause} {position : Position}
    (h : tokenize source file = .error ⟨cause, position⟩) :
    position.file = file.getD "shell" ∧ ∀ text ∈ cause.texts, OneLine text := by
  obtain ⟨n, hn, -, -, heq⟩ := tokenize_eq_error_iff.mp h
  obtain ⟨rfl, rfl⟩ := Diagnostic.mk.inj heq
  have htoken := (tokenizes_tokens (Lexer.ofSource source file)).isOneLine _ (List.getElem_mem hn)
  rw [Lexer.tokens_getElem] at htoken
  exact ⟨rfl, List.forall_mem_singleton.mpr htoken.lexeme⟩

end

/-- Every failure is reported on one line and viewed on five, whatever the source holds. -/
theorem failure_report (source : String) (file : Option String) (diagnostic : Diagnostic)
    (hfile : ∀ name ∈ file, OneLine name)
    (h : tokenize source file = .error diagnostic ∨ ∃ options : Options,
      options.fileName = file ∧ (parse source options).result = .error (.failure diagnostic)) :
    OneLine (diagnostic.render source) ∧
      (∃ line column : Nat, 1 ≤ line ∧ line ≤ source.toList.count '\n' + 1 ∧ 1 ≤ column ∧
        diagnostic.render source = file.getD "shell" ++ ":" ++ toString line ++ ":" ++
          toString column ++ ": " ++ diagnostic.cause.message) ∧
      (diagnostic.view source).toList.count '\n' = 4 := by
  have hreport : diagnostic.position.file = file.getD "shell" ∧
      ∀ text ∈ diagnostic.cause.texts, OneLine text := by
    rcases h with h | ⟨options, rfl, h⟩
    · exact oneLine_texts_of_tokenize h
    · exact oneLine_texts_of_parse h
  obtain ⟨hname, htexts⟩ := hreport
  have hsource : OneLine diagnostic.position.file := by
    rw [hname]
    cases file with
    | none => exact (by decide : OneLine "shell")
    | some name => exact hfile name rfl
  have hmessage := Cause.oneLine_message htexts
  have hheadline := Cause.oneLine_headline htexts
  have hrender : diagnostic.render source = file.getD "shell" ++ ":" ++
      toString (diagnostic.place source).line ++ ":" ++
      toString ((diagnostic.place source).column + 1) ++ ": " ++ diagnostic.cause.message := by
    rw [← hname]
    rfl
  obtain ⟨hline, hline'⟩ := place_line source.toList diagnostic.position.offset
  refine ⟨?_, ⟨_, _, hline, hline', Nat.le_add_left 1 _, hrender⟩, diagnostic.count_view source⟩
  have hcolon : OneLine ":" := by decide
  have hspace : OneLine ": " := by decide
  rw [hrender, ← hname]
  infer_instance

theorem failure_report_line_separator :
    let source := "# a\n\u2028"
    let file := some "unit.k"
    let diagnostic : Diagnostic := ⟨.unknownExpression "'\u2028'", ⟨4, "unit.k"⟩⟩
    (∀ name ∈ file, OneLine name) ∧
      (tokenize source file = .error diagnostic ∨ ∃ options : Options,
        options.fileName = file ∧ (parse source options).result = .error (.failure diagnostic)) ∧
      OneLine (diagnostic.render source) ∧
      (∃ line column : Nat, 1 ≤ line ∧ line ≤ source.toList.count '\n' + 1 ∧ 1 ≤ column ∧
        diagnostic.render source = file.getD "shell" ++ ":" ++ toString line ++ ":" ++
          toString column ++ ": " ++ diagnostic.cause.message) ∧
      (diagnostic.view source).toList.count '\n' = 4 := by
  intro source file diagnostic
  have hfile : ∀ name ∈ file, OneLine name := by
    intro name hname
    obtain rfl : "unit.k" = name := Option.some.inj hname
    decide
  have hfails : tokenize source file = .error diagnostic ∨ ∃ options : Options,
      options.fileName = file ∧ (parse source options).result = .error (.failure diagnostic) :=
    .inr ⟨{ Options.default with fileName := file }, rfl,
      Parse.result_of_diagnostic? (by decide +kernel)⟩
  exact ⟨hfile, hfails, failure_report source file diagnostic hfile hfails⟩

end ExprLang
