import ExprLang.Proofs.Grammar

/-!
# Parser Runs

All that a step does to a parser is to take tokens.  So the parsers that a run meets are counted by
the tokens taken since its start, and the symbols ahead of a parser say all that matters about them.
-/

namespace ExprLang

theorem Token.isChar_iff {token : Token} {c : Char} : token.isChar c ↔ token.kind = .char c := by
  simp [isChar]

namespace Parser

variable {α β : Type}

/-- The parser after its current token has been taken. -/
def shifted (parser : Parser) : Parser :=
  { parser with
    lexer := parser.lexer.next.2
    current := parser.lexer.next.1
    taken := parser.taken + 1 }

/-- The parser after a number of tokens have been taken. -/
def skip : Nat → Parser → Parser
  | 0, parser => parser
  | n + 1, parser => skip n parser.shifted

/-- The next symbols, the current one first. -/
def ahead : Nat → Parser → List Symbol
  | 0, _ => []
  | n + 1, parser => parser.current.symbol :: ahead n parser.shifted

@[simp]
theorem skip_zero (parser : Parser) : parser.skip 0 = parser := rfl

theorem skip_succ (parser : Parser) (n : Nat) : parser.skip (n + 1) = parser.shifted.skip n := rfl

@[simp]
theorem skip_one (parser : Parser) : parser.skip 1 = parser.shifted := rfl

theorem skip_skip (parser : Parser) (m n : Nat) : (parser.skip m).skip n = parser.skip (m + n) := by
  induction m generalizing parser with
  | zero => simp
  | succ m ih => rw [Nat.succ_add, skip_succ, skip_succ, ih]

@[simp]
theorem ahead_zero (parser : Parser) : parser.ahead 0 = [] := rfl

theorem ahead_succ (parser : Parser) (n : Nat) :
    parser.ahead (n + 1) = parser.current.symbol :: parser.shifted.ahead n := rfl

@[simp]
theorem ahead_one (parser : Parser) : parser.ahead 1 = [parser.current.symbol] := rfl

@[simp]
theorem length_ahead (parser : Parser) (n : Nat) : (parser.ahead n).length = n := by
  induction n generalizing parser with
  | zero => rfl
  | succ n ih => rw [ahead_succ, List.length_cons, ih]

theorem ahead_add (parser : Parser) (m n : Nat) :
    parser.ahead (m + n) = parser.ahead m ++ (parser.skip m).ahead n := by
  induction m generalizing parser with
  | zero => simp
  | succ m ih => rw [Nat.succ_add, ahead_succ, ahead_succ, ih, List.cons_append, skip_succ]

theorem getElem_ahead (parser : Parser) {n i : Nat} (h : i < (parser.ahead n).length) :
    (parser.ahead n)[i] = (parser.skip i).current.symbol := by
  induction n generalizing parser i with
  | zero => simp at h
  | succ n ih =>
    cases i with
    | zero => rfl
    | succ i => exact ih parser.shifted (by simpa using h)

theorem length_of_ahead_eq {parser : Parser} {n : Nat} {word : List Symbol}
    (h : parser.ahead n = word) : n = word.length := by
  rw [← h, length_ahead]

@[simp]
theorem shifted_options (parser : Parser) : parser.shifted.options = parser.options := rfl

@[simp]
theorem shifted_tables (parser : Parser) : parser.shifted.tables = parser.tables := rfl

@[simp]
theorem shifted_depth (parser : Parser) : parser.shifted.depth = parser.depth := rfl

@[simp]
theorem shifted_taken (parser : Parser) : parser.shifted.taken = parser.taken + 1 := rfl

@[simp]
theorem skip_options (parser : Parser) (n : Nat) : (parser.skip n).options = parser.options := by
  induction n generalizing parser with
  | zero => rfl
  | succ n ih => rw [skip_succ, ih, shifted_options]

@[simp]
theorem skip_tables (parser : Parser) (n : Nat) : (parser.skip n).tables = parser.tables := by
  induction n generalizing parser with
  | zero => rfl
  | succ n ih => rw [skip_succ, ih, shifted_tables]

@[simp]
theorem skip_depth (parser : Parser) (n : Nat) : (parser.skip n).depth = parser.depth := by
  induction n generalizing parser with
  | zero => rfl
  | succ n ih => rw [skip_succ, ih, shifted_depth]

@[simp]
theorem skip_taken (parser : Parser) (n : Nat) : (parser.skip n).taken = parser.taken + n := by
  induction n generalizing parser with
  | zero => rfl
  | succ n ih =>
    rw [skip_succ, ih, shifted_taken]
    omega

@[simp]
theorem skip_room (parser : Parser) (n : Nat) : (parser.skip n).room = parser.room := by
  simp [room]

theorem skip_lexer (parser : Parser) (n : Nat) :
    (parser.skip n).lexer = parser.lexer.after n := by
  induction n generalizing parser with
  | zero => rfl
  | succ n ih => rw [skip_succ, ih, Lexer.after_succ, shifted]

theorem skip_succ_current (parser : Parser) (n : Nat) :
    (parser.skip (n + 1)).current = parser.lexer.token n := by
  induction n generalizing parser with
  | zero => rfl
  | succ n ih => rw [skip_succ, ih, Lexer.token_succ, shifted]

theorem skip_injective {parser : Parser} {m n : Nat} (h : parser.skip m = parser.skip n) :
    m = n := by
  have htaken := congrArg Parser.taken h
  simpa using htaken

/-- The characters that are left bound the tokens that can be taken before the end of input. -/
def size (parser : Parser) : Nat :=
  parser.lexer.rest.length + if parser.current.kind = .endOfInput then 0 else 1

theorem size_shifted_le (parser : Parser) : parser.shifted.size ≤ parser.size := by
  have hle := parser.lexer.length_rest_next_le
  by_cases hkind : parser.lexer.next.1.kind = .endOfInput
  · simp only [size, shifted, hkind, if_true]
    omega
  · have hlt := parser.lexer.length_rest_next_lt hkind
    simp only [size, shifted, hkind, if_false]
    omega

theorem size_shifted_lt (parser : Parser) (h : parser.current.kind ≠ .endOfInput) :
    parser.shifted.size < parser.size := by
  have hle := parser.lexer.length_rest_next_le
  by_cases hkind : parser.lexer.next.1.kind = .endOfInput
  · simp only [size, shifted, hkind, h, if_true, if_false]
    omega
  · have hlt := parser.lexer.length_rest_next_lt hkind
    simp only [size, shifted, hkind, h, if_false]
    omega

theorem size_skip_le (parser : Parser) (n : Nat) : (parser.skip n).size ≤ parser.size := by
  induction n generalizing parser with
  | zero => exact le_rfl
  | succ n ih => exact (ih parser.shifted).trans parser.size_shifted_le

theorem size_skip_lt (parser : Parser) (n : Nat) (h : parser.current.kind ≠ .endOfInput) :
    (parser.skip (n + 1)).size < parser.size :=
  (size_skip_le parser.shifted n).trans_lt (parser.size_shifted_lt h)

theorem size_lt (parser : Parser) : parser.size < parser.lexer.rest.length + 2 := by
  unfold size
  split <;> omega

/-- The current token is the one that the lexer has read last. -/
def InStep (parser : Parser) : Prop :=
  ∃ lexer : Lexer, lexer.next.1 = parser.current ∧ lexer.next.2 = parser.lexer

theorem inStep_shifted (parser : Parser) : parser.shifted.InStep := ⟨parser.lexer, rfl, rfl⟩

namespace InStep

variable {parser : Parser}

theorem skip (h : parser.InStep) (n : Nat) : (parser.skip n).InStep := by
  induction n generalizing parser with
  | zero => exact h
  | succ n ih => exact ih parser.inStep_shifted

theorem kindOf_eq (h : parser.InStep) :
    kindOf parser.current.lexeme.toList = parser.current.kind := by
  obtain ⟨lexer, hcurrent, -⟩ := h
  rw [← hcurrent, Lexer.next_kind, Lexer.next_lexeme, String.toList_ofList]

/-- The payload of the lexer is the current word. -/
theorem word_eq (h : parser.InStep) (hkind : parser.current.kind = .identifier) :
    parser.lexer.word = parser.current.lexeme := by
  obtain ⟨lexer, hcurrent, hlexer⟩ := h
  rw [← hcurrent, Lexer.next_kind] at hkind
  rw [← hcurrent, ← hlexer]
  simp only [Lexer.next, hkind]

/-- The payload of the lexer is the value of the current number. -/
theorem number_eq (h : parser.InStep) (hkind : parser.current.kind = .number) :
    parser.lexer.number = .ofLiteral parser.current.lexeme.toList := by
  obtain ⟨lexer, hcurrent, hlexer⟩ := h
  rw [← hcurrent, Lexer.next_kind] at hkind
  rw [← hcurrent, ← hlexer]
  simp only [Lexer.next, hkind, if_true, String.toList_ofList]

theorem isLexeme (h : parser.InStep) (hkind : parser.current.kind ≠ .endOfInput) :
    ∃ rest, IsLexeme rest parser.current.kind parser.current.lexeme.toList := by
  obtain ⟨lexer, hcurrent, -⟩ := h
  rw [← hcurrent] at hkind ⊢
  have hne := mt lexer.next_kind_eq_endOfInput_iff.mpr hkind
  rw [Lexer.next_kind, Lexer.next_lexeme, String.toList_ofList]
  exact ⟨_, isLexeme_firstLexeme (startsToken_splitGap false lexer.rest) hne⟩

end InStep

/-- A parser in step with the tables of the language. -/
structure Ready (parser : Parser) : Prop where
  inStep : parser.InStep
  tables : parser.tables = .default

namespace Ready

variable {parser : Parser}

theorem skip (h : parser.Ready) (n : Nat) : (parser.skip n).Ready :=
  ⟨h.inStep.skip n, by rw [skip_tables, h.tables]⟩

theorem proper (h : parser.Ready) (hend : parser.current.kind ≠ .endOfInput)
    (hmalformed : parser.current.kind ≠ .malformedNumber) : parser.current.symbol.Proper := by
  obtain ⟨rest, hlexeme⟩ := h.inStep.isLexeme hend
  exact ⟨hlexeme.alone, hmalformed⟩

theorem symbol_char (h : parser.Ready) {c : Char} (hkind : parser.current.kind = .char c) :
    parser.current.symbol = .char c := by
  obtain ⟨rest, hlexeme⟩ := h.inStep.isLexeme (by simp [hkind])
  rw [hkind] at hlexeme
  simp [Token.symbol, Symbol.char, hkind, ← hlexeme.eq_of_char, String.ofList_toList]

theorem symbol_keyword (h : parser.Ready) {keyword : Keyword}
    (hkind : parser.current.kind = .keyword keyword) :
    parser.current.symbol = .keyword keyword := by
  obtain ⟨rest, hlexeme⟩ := h.inStep.isLexeme (by simp [hkind])
  rw [hkind] at hlexeme
  simp [Token.symbol, Symbol.keyword, hkind, hlexeme.eq_of_keyword, String.ofList_toList]

theorem symbol_endOfInput (h : parser.Ready) (hkind : parser.current.kind = .endOfInput) :
    parser.current.symbol = .endOfInput := by
  have hnil := h.inStep.kindOf_eq
  rw [hkind, kindOf_eq_endOfInput_iff, String.toList_eq_nil_iff] at hnil
  simp [Token.symbol, Symbol.endOfInput, hkind, hnil]

theorem isName (h : parser.Ready) (hkind : parser.current.kind = .identifier) :
    IsName parser.current.lexeme := by
  have hproper := h.proper (by simp [hkind]) (by simp [hkind])
  simpa [IsName, Symbol.name, Token.symbol, hkind] using hproper

theorem isNumber (h : parser.Ready) (hkind : parser.current.kind = .number) :
    IsNumber parser.current.lexeme := by
  have hproper := h.proper (by simp [hkind]) (by simp [hkind])
  simpa [IsNumber, Symbol.number, Token.symbol, hkind] using hproper

end Ready

end Parser

end ExprLang
