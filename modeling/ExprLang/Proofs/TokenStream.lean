import ExprLang.Lexer

/-!
# The Token Stream

Reading one token after the other yields the tokens of the source and then the end of input for
ever.  The stream is indexed by the number of tokens read before, and the list `tokens` is its
initial part up to the first end of input.
-/

namespace ExprLang

theorem kindOf_eq_endOfInput_iff {cs : List Char} : kindOf cs = .endOfInput ↔ cs = [] := by
  cases cs with
  | nil => simp [kindOf]
  | cons c cs =>
    simp only [kindOf, reduceCtorEq, iff_false]
    split
    · split <;> simp
    · split
      · split <;> simp
      · simp

theorem firstLexeme_eq_nil_iff {cs : List Char} : firstLexeme cs = [] ↔ cs = [] := by
  cases cs with
  | nil => simp [firstLexeme]
  | cons c cs =>
    simp only [firstLexeme, reduceCtorEq, iff_false]
    split
    · simp
    · split <;> simp

namespace Lexer

theorem next_kind (lexer : Lexer) :
    lexer.next.1.kind = kindOf (firstLexeme (splitGap false lexer.rest).2) := rfl

theorem next_lexeme (lexer : Lexer) :
    lexer.next.1.lexeme = String.ofList (firstLexeme (splitGap false lexer.rest).2) := rfl

@[simp]
theorem next_file (lexer : Lexer) : lexer.next.2.file = lexer.file := rfl

theorem next_offset (lexer : Lexer) : lexer.next.2.offset = lexer.next.1.stop := rfl

theorem next_rest (lexer : Lexer) : lexer.next.2.rest =
    (splitGap false lexer.rest).2.drop (firstLexeme (splitGap false lexer.rest).2).length := rfl

/-- A token and the gap before it are taken off the text. -/
theorem gap_append_lexeme_append_rest (lexer : Lexer) :
    (splitGap false lexer.rest).1 ++ firstLexeme (splitGap false lexer.rest).2 ++
      lexer.next.2.rest = lexer.rest := by
  rw [next_rest, List.append_assoc, firstLexeme_append_drop, splitGap_append]

theorem next_kind_eq_endOfInput_iff (lexer : Lexer) :
    lexer.next.1.kind = .endOfInput ↔ (splitGap false lexer.rest).2 = [] := by
  rw [next_kind, kindOf_eq_endOfInput_iff, firstLexeme_eq_nil_iff]

theorem length_rest_next_le (lexer : Lexer) : lexer.next.2.rest.length ≤ lexer.rest.length := by
  have h := congrArg List.length lexer.gap_append_lexeme_append_rest
  simp only [List.length_append] at h
  omega

theorem length_rest_next_lt (lexer : Lexer) (h : lexer.next.1.kind ≠ .endOfInput) :
    lexer.next.2.rest.length < lexer.rest.length := by
  have hlength := congrArg List.length lexer.gap_append_lexeme_append_rest
  have hlexeme : 0 < (firstLexeme (splitGap false lexer.rest).2).length := by
    rw [List.length_pos_iff, ne_eq, firstLexeme_eq_nil_iff]
    rwa [ne_eq, next_kind_eq_endOfInput_iff] at h
  simp only [List.length_append] at hlength
  omega

/-- The end of input is read again and again. -/
theorem next_next_of_endOfInput (lexer : Lexer) (h : lexer.next.1.kind = .endOfInput) :
    lexer.next.2.next = (lexer.next.1, lexer.next.2) := by
  rw [next_kind_eq_endOfInput_iff] at h
  simp [next, h, firstLexeme, kindOf, splitGap]

/-- The lexer after a number of tokens. -/
def after : Nat → Lexer → Lexer
  | 0, lexer => lexer
  | n + 1, lexer => after n lexer.next.2

/-- The token that is read after a number of others. -/
def token (lexer : Lexer) (n : Nat) : Token := (lexer.after n).next.1

@[simp]
theorem after_zero (lexer : Lexer) : lexer.after 0 = lexer := rfl

theorem after_succ (lexer : Lexer) (n : Nat) : lexer.after (n + 1) = lexer.next.2.after n := rfl

theorem after_add (lexer : Lexer) (m n : Nat) :
    lexer.after (m + n) = (lexer.after m).after n := by
  induction m generalizing lexer with
  | zero => simp
  | succ m ih => rw [Nat.succ_add, after_succ, after_succ, ih]

theorem after_succ_eq_next (lexer : Lexer) (n : Nat) :
    lexer.after (n + 1) = (lexer.after n).next.2 := by
  rw [after_add]
  rfl

theorem token_zero (lexer : Lexer) : lexer.token 0 = lexer.next.1 := rfl

theorem token_succ (lexer : Lexer) (n : Nat) : lexer.token (n + 1) = lexer.next.2.token n := rfl

@[simp]
theorem after_file (lexer : Lexer) (n : Nat) : (lexer.after n).file = lexer.file := by
  induction n generalizing lexer with
  | zero => rfl
  | succ n ih => rw [after_succ, ih, next_file]

theorem after_of_endOfInput (lexer : Lexer) (h : lexer.next.1.kind = .endOfInput) (n : Nat) :
    (lexer.after n).next = lexer.next := by
  induction n with
  | zero => rfl
  | succ n ih =>
    rw [after_succ_eq_next, ih]
    exact lexer.next_next_of_endOfInput h

/-- With room for every character the bound on the number of tokens is never met. -/
theorem upToEnd_eq_of_lt {m n : Nat} (lexer : Lexer) (hm : lexer.rest.length < m)
    (hn : lexer.rest.length < n) : upToEnd m lexer = upToEnd n lexer := by
  induction m generalizing lexer n with
  | zero => omega
  | succ m ih =>
    obtain ⟨n, rfl⟩ : ∃ k, n = k + 1 := ⟨n - 1, by omega⟩
    simp only [upToEnd]
    split
    · rfl
    · next hkind =>
      have hlt := lexer.length_rest_next_lt hkind
      rw [ih (n := n) lexer.next.2 (by omega) (by omega)]

theorem tokens_eq (lexer : Lexer) :
    lexer.tokens = if lexer.next.1.kind = .endOfInput then [lexer.next.1]
      else lexer.next.1 :: lexer.next.2.tokens := by
  simp only [tokens, upToEnd]
  split
  · rfl
  · next hkind =>
    have hlt := lexer.length_rest_next_lt hkind
    congr 1
    exact upToEnd_eq_of_lt lexer.next.2 hlt (Nat.lt_succ_self _)

theorem tokens_of_endOfInput (lexer : Lexer) (h : lexer.next.1.kind = .endOfInput) :
    lexer.tokens = [lexer.next.1] := by
  rw [tokens_eq, if_pos h]

theorem tokens_of_ne_endOfInput (lexer : Lexer) (h : lexer.next.1.kind ≠ .endOfInput) :
    lexer.tokens = lexer.next.1 :: lexer.next.2.tokens := by
  rw [tokens_eq, if_neg h]

theorem tokens_ne_nil (lexer : Lexer) : lexer.tokens ≠ [] := by
  rw [tokens_eq]
  split <;> simp

theorem length_tokens_pos (lexer : Lexer) : 0 < lexer.tokens.length :=
  List.length_pos_iff.mpr lexer.tokens_ne_nil

/-- The list of tokens is the initial part of the stream. -/
theorem tokens_getElem (lexer : Lexer) (n : Nat) (h : n < lexer.tokens.length) :
    lexer.tokens[n] = lexer.token n := by
  induction n generalizing lexer with
  | zero =>
    simp only [tokens_eq lexer, token_zero]
    split <;> rfl
  | succ n ih =>
    by_cases hkind : lexer.next.1.kind = .endOfInput
    · rw [tokens_of_endOfInput lexer hkind] at h
      simp at h
    · simp only [tokens_of_ne_endOfInput lexer hkind, List.getElem_cons_succ, token_succ]
      apply ih

/-- The end of input is the last token of the list, and the stream stays there. -/
theorem token_kind_eq_endOfInput_iff (lexer : Lexer) (n : Nat) :
    (lexer.token n).kind = .endOfInput ↔ lexer.tokens.length ≤ n + 1 := by
  induction n generalizing lexer with
  | zero =>
    by_cases hkind : lexer.next.1.kind = .endOfInput
    · simp [token_zero, hkind, tokens_of_endOfInput lexer hkind]
    · have hpos := lexer.next.2.length_tokens_pos
      simp only [token_zero, hkind, tokens_of_ne_endOfInput lexer hkind, List.length_cons,
        false_iff]
      omega
  | succ n ih =>
    by_cases hkind : lexer.next.1.kind = .endOfInput
    · have hstay : lexer.token (n + 1) = lexer.next.1 := by
        rw [token, after_of_endOfInput lexer hkind]
      simp [hstay, hkind, tokens_of_endOfInput lexer hkind]
    · rw [token_succ, ih, tokens_of_ne_endOfInput lexer hkind, List.length_cons]
      omega

theorem token_eq_getLast (lexer : Lexer) (n : Nat) (h : lexer.tokens.length ≤ n + 1) :
    lexer.token n = lexer.tokens.getLast lexer.tokens_ne_nil := by
  induction n generalizing lexer with
  | zero =>
    have hkind := (lexer.token_kind_eq_endOfInput_iff 0).mpr h
    simp [lexer.tokens_of_endOfInput hkind, token_zero]
  | succ n ih =>
    by_cases hkind : lexer.next.1.kind = .endOfInput
    · rw [token, after_of_endOfInput lexer hkind]
      simp [lexer.tokens_of_endOfInput hkind]
    · rw [lexer.tokens_of_ne_endOfInput hkind, List.length_cons] at h
      simp [lexer.tokens_of_ne_endOfInput hkind, token_succ,
        List.getLast_cons lexer.next.2.tokens_ne_nil, ih lexer.next.2 (by omega)]

theorem token_eq_getD (lexer : Lexer) (n : Nat) :
    lexer.token n = lexer.tokens[n]?.getD (lexer.tokens.getLast lexer.tokens_ne_nil) := by
  by_cases hn : n < lexer.tokens.length
  · rw [List.getElem?_eq_getElem hn, Option.getD_some, lexer.tokens_getElem n hn]
  · rw [List.getElem?_eq_none (by omega), Option.getD_none, lexer.token_eq_getLast n (by omega)]

end Lexer

end ExprLang
