import ExprLang.Proofs.Failures

/-!
# Writing Tokens Out

Lexemes are written one after the other, with blanks and closed comments between them.  A separator
ends the lexeme in front of it and leaves the one behind it alone, so the text has these lexemes as
its tokens, each where it was written.
-/

namespace ExprLang

/-- Blanks and comments, each comment with the character that ends its line. -/
inductive IsSeparator : List Char → Prop
  | empty : IsSeparator []
  | blank {c : Char} {separator : List Char} : c ∈ blanks → IsSeparator separator →
      IsSeparator (c :: separator)
  | comment {body separator : List Char} {close : Char} : (∀ c ∈ body, c ≠ '\n' ∧ c ≠ '\r') →
      close = '\n' ∨ close = '\r' → IsSeparator separator →
      IsSeparator ('#' :: (body ++ close :: separator))

/-- A word, a run of digits with at most one point, or a single other character. -/
inductive IsTokenText : List Char → Prop
  | word {word : List Char} : IsWord word → IsTokenText word
  | number {run : List Char} : IsRun run → run.count '.' ≤ 1 → IsTokenText run
  | char {c : Char} : c.isAlpha = false → c.isDigit = false → c ∉ blanks → c ≠ '#' →
      IsTokenText [c]

namespace IsSeparator

variable {separator : List Char}

/-- A closed comment is one whatever follows. -/
theorem gap (h : IsSeparator separator) (rest : List Char) : Gap rest separator := by
  induction h with
  | empty => exact .empty
  | blank hc _ ih => exact .blank hc ih
  | @comment body separator close hbody hclose _ ih =>
    have hblank : close ∈ blanks := by
      rcases hclose with rfl | rfl <;> decide
    exact .comment hbody (by simpa using hclose) (.blank hblank ih)

theorem ends {p : Char → Bool} {rest : List Char} (h : IsSeparator separator)
    (hblanks : ∀ c ∈ blanks, p c = false) (hhash : p '#' = false)
    (hrest : separator = [] → rest = []) : Ends p (separator ++ rest) := by
  cases h with
  | empty => simp [Ends, hrest rfl]
  | blank hc => simp [Ends, hblanks _ hc]
  | comment => simp [Ends, hhash]

end IsSeparator

namespace IsTokenText

variable {lexeme : List Char}

theorem isLexeme {rest : List Char} (h : IsTokenText lexeme) (hword : Ends Char.isAlphanum rest)
    (hrun : Ends isNumeric rest) : IsLexeme rest (kindOf lexeme) lexeme := by
  cases h with
  | word h => exact isLexeme_word h hword
  | number h => exact isLexeme_run h hrun
  | @char c halpha hdigit hblank hhash =>
    have hkind : kindOf [c] = .char c := by simp [kindOf, halpha, hdigit]
    rw [hkind]
    exact .char halpha hdigit hblank hhash

theorem isLexeme_alone (h : IsTokenText lexeme) : IsLexeme [] (kindOf lexeme) lexeme :=
  h.isLexeme (by simp [Ends]) (by simp [Ends])

theorem kindOf_ne_malformedNumber (h : IsTokenText lexeme) : kindOf lexeme ≠ .malformedNumber := by
  cases h with
  | word h =>
    rw [kindOf_of_isWord h]
    split <;> simp
  | number h hcount => simp [kindOf_of_isRun h, hcount]
  | char halpha hdigit => simp [kindOf, halpha, hdigit]

end IsTokenText

theorem IsLexeme.isTokenText {rest lexeme : List Char} {kind : TokenKind}
    (h : IsLexeme rest kind lexeme) (hkind : kind ≠ .malformedNumber) : IsTokenText lexeme := by
  cases h with
  | keyword hword => exact .word hword
  | identifier hword => exact .word hword
  | number hrun _ hcount => exact .number hrun hcount
  | malformedNumber => exact absurd rfl hkind
  | char halpha hdigit hblank hhash => exact .char halpha hdigit hblank hhash

/-- A lexeme and what is written behind it. -/
structure Piece where
  lexeme : List Char
  separator : List Char

/-- Lexemes with separators before, between and behind them. -/
structure Writing where
  front : List Char
  pieces : List Piece
  isSeparator_front : IsSeparator front
  isSeparator : ∀ piece ∈ pieces, IsSeparator piece.separator
  isTokenText : ∀ piece ∈ pieces, IsTokenText piece.lexeme
  /-- Only behind the last lexeme the separator may be empty. -/
  separated : ∀ piece ∈ pieces.dropLast, piece.separator ≠ []

namespace Writing

/-- The lexemes with the separators behind them. -/
def textOf (pieces : List Piece) : List Char :=
  pieces.flatMap fun piece ↦ piece.lexeme ++ piece.separator

/-- The tokens that the lexemes are, the first of them at the given byte offset. -/
def tokensOf : Nat → List Piece → List Token
  | _, [] => []
  | offset, piece :: pieces =>
    ⟨kindOf piece.lexeme, String.ofList piece.lexeme, offset,
        offset + Text.byteSize piece.lexeme⟩ ::
      tokensOf (offset + Text.byteSize piece.lexeme + Text.byteSize piece.separator) pieces

theorem map_symbol_tokensOf (offset : Nat) (pieces : List Piece) :
    (tokensOf offset pieces).map Token.symbol =
      pieces.map fun piece ↦ ⟨kindOf piece.lexeme, String.ofList piece.lexeme⟩ := by
  induction pieces generalizing offset with
  | nil => rfl
  | cons piece pieces ih => simp [tokensOf, ih, Token.symbol]

theorem tokenizes_pieces {front : List Char} {pieces : List Piece} (hfront : IsSeparator front)
    (hseparator : ∀ piece ∈ pieces, IsSeparator piece.separator)
    (htext : ∀ piece ∈ pieces, IsTokenText piece.lexeme)
    (hseparated : ∀ piece ∈ pieces.dropLast, piece.separator ≠ []) (offset : Nat) :
    Tokenizes offset (front ++ textOf pieces)
      (tokensOf (offset + Text.byteSize front) pieces ++
        [⟨.endOfInput, "", offset + Text.byteSize (front ++ textOf pieces),
          offset + Text.byteSize (front ++ textOf pieces)⟩]) := by
  induction pieces generalizing front offset with
  | nil => simpa [textOf, tokensOf] using Tokenizes.finish (hfront.gap [])
  | cons piece pieces ih =>
    rw [List.forall_mem_cons] at hseparator htext
    have hrest : piece.separator = [] → textOf pieces = [] := by
      intro hempty
      cases pieces with
      | nil => rfl
      | cons => exact absurd hempty (hseparated piece (by simp))
    have hlexeme : IsLexeme (piece.separator ++ textOf pieces) (kindOf piece.lexeme) piece.lexeme :=
      htext.1.isLexeme (hseparator.1.ends (by simp [blanks]) rfl hrest)
        (hseparator.1.ends (by simp [blanks, isNumeric]) rfl hrest)
    have hseparated' : ∀ piece ∈ pieces.dropLast, piece.separator ≠ [] := by
      intro other hother
      have hne : pieces ≠ [] := by
        rintro rfl
        simp at hother
      exact hseparated other (by simp [List.dropLast_cons_of_ne_nil hne, hother])
    have htoken := Tokenizes.token (hfront.gap _) hlexeme
      (ih hseparator.1 hseparator.2 htext.2 hseparated'
        (offset + Text.byteSize front + Text.byteSize piece.lexeme))
    simpa [textOf, tokensOf, Nat.add_assoc] using htoken

def text (writing : Writing) : List Char := writing.front ++ textOf writing.pieces

/-- The tokens of a writing in its text, the end of input last. -/
def tokens (writing : Writing) : List Token :=
  tokensOf (Text.byteSize writing.front) writing.pieces ++
    [⟨.endOfInput, "", Text.byteSize writing.text, Text.byteSize writing.text⟩]

end Writing

theorem tokenize_eq_ok_iff {source : String} {file : Option String} {tokens : List Token} :
    tokenize source file = .ok tokens ↔ (Lexer.ofSource source file).tokens = tokens ∧
      ∀ token ∈ tokens, token.kind ≠ .malformedNumber := by
  rw [tokenize]
  cases hfind : (Lexer.ofSource source file).tokens.find? (·.kind = .malformedNumber) with
  | none =>
    simp only [List.find?_eq_none, decide_eq_true_eq] at hfind
    simp only [Except.ok.injEq]
    exact ⟨fun h ↦ ⟨h, h ▸ hfind⟩, And.left⟩
  | some token =>
    simp only [reduceCtorEq, false_iff]
    rintro ⟨rfl, hsound⟩
    exact hsound token (List.mem_of_find?_eq_some hfind) (by simpa using List.find?_some hfind)

theorem Writing.tokenize_text (writing : Writing) (file : Option String) :
    tokenize (String.ofList writing.text) file = .ok writing.tokens := by
  have htokens := tokenizes_pieces writing.isSeparator_front writing.isSeparator writing.isTokenText
    writing.separated 0
  rw [Nat.zero_add, Nat.zero_add] at htokens
  rw [tokenize_eq_ok_iff]
  constructor
  · exact (tokens_of_tokenizes htokens _ rfl (by simp [Lexer.ofSource, text])).symm
  · intro token htoken
    rw [tokens, List.mem_append, List.mem_singleton] at htoken
    rcases htoken with htoken | rfl
    · have hsymbol := List.mem_map_of_mem (f := Token.symbol) htoken
      rw [map_symbol_tokensOf, List.mem_map] at hsymbol
      obtain ⟨piece, hpiece, heq⟩ := hsymbol
      rw [← token.symbol_kind, ← heq]
      exact (writing.isTokenText piece hpiece).kindOf_ne_malformedNumber
    · simp

namespace Writing

/-- The lexemes with a blank behind each but the last. -/
def spaced : List (List Char) → List Piece
  | [] => []
  | [lexeme] => [⟨lexeme, []⟩]
  | lexeme :: next :: lexemes => ⟨lexeme, [' ']⟩ :: spaced (next :: lexemes)

theorem map_lexeme_spaced (lexemes : List (List Char)) :
    (spaced lexemes).map Piece.lexeme = lexemes := by
  induction lexemes using spaced.induct with
  | case1 => rfl
  | case2 => rfl
  | case3 lexeme next lexemes ih => simp [spaced, ih]

theorem textOf_spaced (lexemes : List (List Char)) :
    textOf (spaced lexemes) = [' '].intercalate lexemes := by
  induction lexemes using spaced.induct with
  | case1 => rfl
  | case2 lexeme => simp [spaced, textOf]
  | case3 lexeme next lexemes ih =>
    rw [List.intercalate_cons_cons, ← ih]
    simp [spaced, textOf]

theorem isSeparator_of_mem_spaced {lexemes : List (List Char)} {piece : Piece}
    (h : piece ∈ spaced lexemes) : IsSeparator piece.separator := by
  induction lexemes using spaced.induct with
  | case1 => simp [spaced] at h
  | case2 lexeme =>
    obtain rfl := List.mem_singleton.mp h
    exact .empty
  | case3 lexeme next lexemes ih =>
    rcases List.mem_cons.mp h with rfl | h
    · exact .blank (by decide) .empty
    · exact ih h

theorem spaced_ne_nil {lexemes : List (List Char)} (h : lexemes ≠ []) : spaced lexemes ≠ [] := by
  intro hnil
  apply h
  rw [← map_lexeme_spaced lexemes, hnil, List.map_nil]

theorem separated_spaced (lexemes : List (List Char)) :
    ∀ piece ∈ (spaced lexemes).dropLast, piece.separator ≠ [] := by
  induction lexemes using spaced.induct with
  | case1 => simp [spaced]
  | case2 => simp [spaced]
  | case3 lexeme next lexemes ih =>
    rw [spaced, List.dropLast_cons_of_ne_nil (spaced_ne_nil (by simp)), List.forall_mem_cons]
    exact ⟨by simp, ih⟩

def ofLexemes (lexemes : List (List Char)) (h : ∀ lexeme ∈ lexemes, IsTokenText lexeme) :
    Writing where
  front := []
  pieces := spaced lexemes
  isSeparator_front := .empty
  isSeparator _ := isSeparator_of_mem_spaced
  isTokenText piece hpiece := by
    apply h
    rw [← map_lexeme_spaced lexemes]
    exact List.mem_map_of_mem hpiece
  separated := separated_spaced lexemes

theorem map_symbol_tokens_ofLexemes (lexemes : List (List Char))
    (h : ∀ lexeme ∈ lexemes, IsTokenText lexeme) : (ofLexemes lexemes h).tokens.map Token.symbol =
      (lexemes.map fun lexeme ↦ ⟨kindOf lexeme, String.ofList lexeme⟩) ++ [.endOfInput] := by
  have hpieces := congrArg (List.map fun lexeme ↦ Symbol.mk (kindOf lexeme) (String.ofList lexeme))
    (map_lexeme_spaced lexemes)
  rw [List.map_map] at hpieces
  rw [tokens, List.map_append, map_symbol_tokensOf, ← hpieces]
  rfl

end Writing

theorem Tokenizes.isLexeme {offset : Nat} {text : List Char} {tokens : List Token}
    (h : Tokenizes offset text tokens) :
    ∀ token ∈ tokens.dropLast, IsLexeme [] token.kind token.lexeme.toList := by
  induction h with
  | finish => simp
  | token _ hlexeme htokens ih =>
    obtain ⟨before, rfl⟩ := htokens.exists_concat
    rw [List.dropLast_cons_of_ne_nil (by simp), List.forall_mem_cons]
    exact ⟨by simpa using hlexeme.alone, ih⟩

/-- The lexemes of a source that is read without failure, written with single blanks between them,
are read as they are. -/
theorem tokenize_lexemes {source : String} {file : Option String} {tokens : List Token}
    (h : tokenize source file = .ok tokens) (file' : Option String) : ∃ tokens',
      tokenize (" ".intercalate (tokens.dropLast.map Token.lexeme)) file' = .ok tokens' ∧
        tokens'.map Token.symbol = tokens.map Token.symbol := by
  obtain ⟨rfl, hsound⟩ := tokenize_eq_ok_iff.mp h
  have htokens := tokenizes_tokens (Lexer.ofSource source file)
  have hlexemes := htokens.isLexeme
  obtain ⟨before, hbefore⟩ := htokens.exists_concat
  rw [hbefore] at hsound hlexemes ⊢
  rw [List.dropLast_concat] at hlexemes ⊢
  have htexts : ∀ lexeme ∈ before.map fun token ↦ token.lexeme.toList, IsTokenText lexeme := by
    rw [List.forall_mem_map]
    intro token htoken
    exact (hlexemes token htoken).isTokenText (hsound token (List.mem_append_left _ htoken))
  refine ⟨(Writing.ofLexemes _ htexts).tokens, ?_, ?_⟩
  · have htext : String.ofList (Writing.ofLexemes _ htexts).text =
        " ".intercalate (before.map Token.lexeme) := by
      rw [← String.toList_inj, String.toList_ofList, String.toList_intercalate, List.map_map]
      exact Writing.textOf_spaced _
    rw [← htext]
    exact Writing.tokenize_text _ file'
  · rw [Writing.map_symbol_tokens_ofLexemes, List.map_append, List.map_map]
    congr 1
    apply List.map_congr_left
    intro token htoken
    simp [Token.symbol, (hlexemes token htoken).kindOf_eq]

/-- Reading undoes writing.  A text of lexemes with separators between them has them as its tokens,
each of the kind that its text has and at the place where it was written, and the end of input
behind all of the text.  So the lexemes of any source that is read can be written with single blanks
between them. -/
theorem tokenize_undoes_writing :
    (∀ (writing : Writing) (file : Option String),
      tokenize (String.ofList writing.text) file = .ok writing.tokens ∧
      ∀ piece ∈ writing.pieces, IsLexeme [] (kindOf piece.lexeme) piece.lexeme) ∧
    ∀ (source : String) (file file' : Option String) (tokens : List Token),
      tokenize source file = .ok tokens → ∃ tokens',
        tokenize (" ".intercalate (tokens.dropLast.map Token.lexeme)) file' = .ok tokens' ∧
        tokens'.map Token.symbol = tokens.map Token.symbol := by
  refine ⟨fun writing file ↦ ⟨writing.tokenize_text file, fun piece hpiece ↦ ?_⟩, ?_⟩
  · exact (writing.isTokenText piece hpiece).isLexeme_alone
  · intro source file file' tokens h
    exact tokenize_lexemes h file'

/-- A comment with a semicolon in it stands between a word and a character of two bytes. -/
def commented : Writing where
  front := ['\t']
  pieces := [⟨['i', 'f'], ['#', ';', '\r']⟩, ⟨['§'], [' ']⟩, ⟨['2', '.', '5'], []⟩]
  isSeparator_front := .blank (by decide) .empty
  isSeparator := by
    simp only [List.forall_mem_cons, List.not_mem_nil, false_imp_iff, implies_true, and_true]
    have hbody : ∀ c ∈ [';'], c ≠ '\n' ∧ c ≠ '\r' := by simp
    exact ⟨.comment hbody (.inr rfl) .empty, .blank (by decide) .empty, .empty⟩
  isTokenText := by
    simp only [List.forall_mem_cons, List.not_mem_nil, false_imp_iff, implies_true, and_true]
    exact ⟨.word (.intro rfl (by simp)), .char rfl rfl (by decide) (by decide),
      .number (.intro rfl (by simp)) (by decide)⟩
  separated := by simp

theorem tokenize_undoes_writing_around_comment :
    tokenize "\tif#;\r§ 2.5" none = .ok
      [⟨.keyword .branch, "if", 1, 3⟩, ⟨.char '§', "§", 6, 8⟩, ⟨.number, "2.5", 9, 12⟩,
        ⟨.endOfInput, "", 12, 12⟩] ∧
    ∃ tokens, tokenize "if § 2.5" none = .ok tokens ∧ tokens.map Token.symbol =
      [⟨.keyword .branch, "if"⟩, ⟨.char '§', "§"⟩, ⟨.number, "2.5"⟩, ⟨.endOfInput, ""⟩] := by
  have hread : tokenize "\tif#;\r§ 2.5" none = .ok commented.tokens :=
    (tokenize_undoes_writing.1 commented none).1
  obtain ⟨tokens, htokens, hsymbols⟩ :=
    tokenize_undoes_writing.2 "\tif#;\r§ 2.5" none none commented.tokens hread
  exact ⟨hread, tokens, htokens, hsymbols⟩

end ExprLang
