import ExprLang.Proofs.Acceptance

/-!
# The Tokens of Joined Sources

Two sources with a semicolon on a line of its own between them.  A newline ends every token and
every comment, so the tokens of both sources stay what they are, and those of the second one only
move.
-/

namespace ExprLang

/-- The token that many bytes later. -/
def Token.shift (bytes : Nat) (token : Token) : Token :=
  { token with start := bytes + token.start, stop := bytes + token.stop }

@[simp]
theorem Token.shift_symbol (bytes : Nat) (token : Token) :
    (token.shift bytes).symbol = token.symbol := rfl

@[simp]
theorem Token.shift_kind (bytes : Nat) (token : Token) :
    (token.shift bytes).kind = token.kind := rfl

@[simp]
theorem Token.shift_start (bytes : Nat) (token : Token) :
    (token.shift bytes).start = bytes + token.start := rfl

/-- The rules do not ask where a text stands. -/
theorem Tokenizes.shift {offset : Nat} {text : List Char} {tokens : List Token}
    (h : Tokenizes offset text tokens) (bytes : Nat) :
    Tokenizes (bytes + offset) text (tokens.map (Token.shift bytes)) := by
  induction h with
  | @finish offset gap hgap =>
    have hfinish : Tokenizes (bytes + offset) gap _ := .finish hgap
    rwa [Nat.add_assoc] at hfinish
  | @token offset gap lexeme rest kind tokens hgap hlexeme _ ih =>
    simp only [← Nat.add_assoc] at ih
    have htoken := Tokenizes.token hgap hlexeme ih
    simpa [Token.shift, Nat.add_assoc] using htoken

/-- A gap stays one in front of more text. -/
theorem Gap.append_rest {rest gap : List Char} (h : Gap rest gap) (hne : rest ≠ [])
    (tail : List Char) : Gap (rest ++ tail) gap := by
  induction h with
  | empty => exact .empty
  | blank hc _ ih => exact .blank hc ih
  | @comment body gap hbody hends _ ih =>
    refine .comment hbody ?_ ih
    rwa [← List.append_assoc, List.head?_append_of_ne_nil _ (by simp [hne])]

/-- A gap that ends a text goes on on the next line, whether or not it ends in a comment. -/
theorem Gap.append_line {rest gap gap' : List Char} (h : Gap [] gap)
    (h' : Gap rest ('\n' :: gap')) : Gap rest (gap ++ '\n' :: gap') := by
  induction h with
  | empty => exact h'
  | blank hc _ ih => exact .blank hc ih
  | @comment body gap hbody hends _ ih =>
    rw [List.cons_append, List.append_assoc]
    refine .comment hbody ?_ ih
    cases gap with
    | nil => simp
    | cons c gap => simpa using hends

theorem Ends.append_line {p : Char → Bool} {rest : List Char} (h : Ends p rest)
    (hp : p '\n' = false) (text : List Char) : Ends p (rest ++ '\n' :: text) := by
  cases rest with
  | nil => simpa [Ends] using hp
  | cons c cs => simpa [Ends] using h

theorem IsLexeme.append_line {rest lexeme : List Char} {kind : TokenKind}
    (h : IsLexeme rest kind lexeme) (text : List Char) :
    IsLexeme (rest ++ '\n' :: text) kind lexeme :=
  h.of_ends (fun hrest ↦ hrest.append_line rfl text) fun hrest ↦ hrest.append_line rfl text

/-- A text that starts with a newline starts with a gap. -/
theorem IsLexeme.exists_gap {text gap lexeme rest : List Char} {kind : TokenKind}
    (h : IsLexeme rest kind lexeme) (htext : '\n' :: text = gap ++ lexeme ++ rest) :
    ∃ gap', gap = '\n' :: gap' := by
  cases gap with
  | nil =>
    have hstart := h.startsToken
    rw [List.nil_append] at htext
    rw [← htext] at hstart
    exact absurd (hstart _ rfl) (by decide)
  | cons c gap =>
    obtain ⟨rfl, -⟩ := List.cons.inj htext
    exact ⟨gap, rfl⟩

namespace Tokenizes

variable {offset : Nat} {text text' : List Char} {tokens tokens' : List Token}

theorem append_gap {gap : List Char} (hgap : Gap [] gap)
    (h : Tokenizes (offset + Text.byteSize gap) ('\n' :: text) tokens) :
    Tokenizes offset (gap ++ '\n' :: text) tokens := by
  generalize hoffset : offset + Text.byteSize gap = offset' at h
  generalize htext : '\n' :: text = text' at h
  cases h with
  | finish hgap' =>
    subst htext hoffset
    have hfinish : Tokenizes offset _ _ := .finish (hgap.append_line hgap')
    simpa [Nat.add_assoc] using hfinish
  | @token _ gap' lexeme rest kind tokens hgap' hlexeme htokens =>
    obtain ⟨gap', rfl⟩ := hlexeme.exists_gap htext
    have hsize : Text.byteSize (gap ++ '\n' :: gap') =
        Text.byteSize gap + Text.byteSize ('\n' :: gap') := Text.byteSize_append _ _
    rw [← hoffset, Nat.add_assoc offset, ← hsize] at htokens ⊢
    have htoken := Tokenizes.token (hgap.append_line hgap') hlexeme htokens
    simpa using htoken

/-- The end of the first text turns into the first token behind it. -/
theorem append_line (h : Tokenizes offset text tokens)
    (h' : Tokenizes (offset + Text.byteSize text) ('\n' :: text') tokens') :
    Tokenizes offset (text ++ '\n' :: text') (tokens.dropLast ++ tokens') := by
  induction h with
  | finish hgap => exact append_gap hgap h'
  | @token offset gap lexeme rest kind tokens hgap hlexeme htokens ih =>
    simp only [Text.byteSize_append, ← Nat.add_assoc] at h'
    have hgap' := hgap.append_rest (by simp [hlexeme.ne_nil]) ('\n' :: text')
    rw [List.append_assoc] at hgap'
    have htoken := Tokenizes.token hgap' (hlexeme.append_line text') (ih h')
    have hne : tokens ≠ [] := by
      obtain ⟨before, rfl⟩ := htokens.exists_concat
      simp
    rw [List.dropLast_cons_of_ne_nil hne]
    simpa using htoken

theorem cons_newline (h : Tokenizes (offset + 1) text tokens) :
    Tokenizes offset ('\n' :: text) tokens := by
  have hblank : '\n' ∈ blanks := by decide
  generalize hoffset : offset + 1 = offset' at h
  cases h with
  | @finish _ gap hgap =>
    have hfinish : Tokenizes offset _ _ := .finish (.blank hblank hgap)
    rw [← hoffset, Nat.add_assoc]
    exact hfinish
  | @token _ gap lexeme rest kind tokens hgap hlexeme htokens =>
    rw [← hoffset, Nat.add_assoc offset] at htokens ⊢
    exact .token (.blank hblank hgap) hlexeme htokens

/-- A line with nothing but a semicolon is one token. -/
theorem cons_semicolon_line (h : Tokenizes 0 text tokens) (offset : Nat) :
    Tokenizes offset ('\n' :: ';' :: '\n' :: text)
      (⟨.char ';', ";", offset + 1, offset + 2⟩ :: tokens.map (Token.shift (offset + 3))) :=
  .token (.blank (by decide) .empty) (.char rfl rfl (by decide) (by decide))
    (cons_newline (h.shift (offset + 3)))

end Tokenizes

/-- The second source after the first one, with a semicolon on a line of its own between them. -/
def joined (first second : String) : String := first ++ "\n;\n" ++ second

variable (first second : String)

theorem tokens_joined (file : Option String) : (Lexer.ofSource (joined first second) file).tokens =
    (Lexer.ofSource first file).tokens.dropLast ++
      ⟨.char ';', ";", first.utf8ByteSize + 1, first.utf8ByteSize + 2⟩ ::
        (Lexer.ofSource second file).tokens.map (Token.shift (first.utf8ByteSize + 3)) := by
  have hfirst : Tokenizes 0 first.toList (Lexer.ofSource first file).tokens :=
    tokenizes_tokens (Lexer.ofSource first file)
  have hsecond : Tokenizes 0 second.toList (Lexer.ofSource second file).tokens :=
    tokenizes_tokens (Lexer.ofSource second file)
  have hline := hsecond.cons_semicolon_line (0 + Text.byteSize first.toList)
  have htokens := hfirst.append_line hline
  rw [Nat.zero_add, byteSize_toList] at htokens
  refine (tokens_of_tokenizes htokens (Lexer.ofSource (joined first second) file) rfl ?_).symm
  simp [Lexer.ofSource, joined]

theorem getLast_tokens_joined (file : Option String) :
    (Lexer.ofSource (joined first second) file).tokens.getLast (Lexer.tokens_ne_nil _) =
      ((Lexer.ofSource second file).tokens.getLast (Lexer.tokens_ne_nil _)).shift
        (first.utf8ByteSize + 3) := by
  simp [tokens_joined, List.getLast_map, Lexer.tokens_ne_nil]

/-- Behind the semicolon stand the tokens of the second source, and the end of input for ever. -/
theorem token_joined (file : Option String) (n : Nat) :
    (Lexer.ofSource (joined first second) file).token
        ((Lexer.ofSource first file).tokens.length + n) =
      ((Lexer.ofSource second file).token n).shift (first.utf8ByteSize + 3) := by
  have hpos := (Lexer.ofSource first file).length_tokens_pos
  rw [Lexer.token_eq_getD, Lexer.token_eq_getD, getLast_tokens_joined, tokens_joined]
  rw [List.getElem?_append_right (by rw [List.length_dropLast]; omega), List.length_dropLast]
  have hindex : (Lexer.ofSource first file).tokens.length + n -
      ((Lexer.ofSource first file).tokens.length - 1) = n + 1 := by omega
  rw [hindex, List.getElem?_cons_succ, List.getElem?_map]
  cases (Lexer.ofSource second file).tokens[n]? <;> rfl

theorem sourceSymbols_joined : sourceSymbols (joined first second) =
    (sourceSymbols first).dropLast ++ .char ';' :: sourceSymbols second := by
  rw [sourceSymbols, tokens_joined, List.map_append, List.map_cons, List.map_map, List.map_dropLast]
  rfl

end ExprLang
