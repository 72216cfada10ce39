import ExprLang.Proofs.TokenStream
import Mathlib.Data.List.TakeWhile
import Mathlib.Data.String.Basic

/-!
# Tokenization

A source is cut into gaps and lexemes.  A gap holds blanks and comments, each comment with
everything up to the end of its line, and a lexeme is as long as its characters allow.  The rules
speak of the characters that follow, so they leave one way to cut a source, and the lexer finds it.
-/

namespace ExprLang

/-- The characters that may stand between tokens. -/
def blanks : List Char := [' ', '\t', '\n', '\x0b', '\x0c', '\r']

/-- The text does not start with a character of the given class. -/
def Ends (p : Char → Bool) (rest : List Char) : Prop := ∀ c ∈ rest.head?, p c = false

/-- Blanks and comments before the rest of a text. -/
inductive Gap (rest : List Char) : List Char → Prop
  | empty : Gap rest []
  | blank {c : Char} {gap : List Char} : c ∈ blanks → Gap rest gap → Gap rest (c :: gap)
  | comment {body gap : List Char} : (∀ c ∈ body, c ≠ '\n' ∧ c ≠ '\r') →
      (∀ c ∈ (gap ++ rest).head?, c = '\n' ∨ c = '\r') → Gap rest gap →
      Gap rest ('#' :: (body ++ gap))

/-- An ASCII letter with ASCII letters and digits after it. -/
inductive IsWord : List Char → Prop
  | intro {c : Char} {cs : List Char} : c.isAlpha → (∀ d ∈ cs, d.isAlphanum) → IsWord (c :: cs)

/-- A digit with digits and points after it. -/
inductive IsRun : List Char → Prop
  | intro {c : Char} {cs : List Char} : c.isDigit → (∀ d ∈ cs, d.isDigit ∨ d = '.') →
      IsRun (c :: cs)

/-- The text of a token before the rest of a text. -/
inductive IsLexeme (rest : List Char) : TokenKind → List Char → Prop
  | keyword {word : List Char} {keyword : Keyword} : IsWord word → Ends Char.isAlphanum rest →
      keyword.word = String.ofList word → IsLexeme rest (.keyword keyword) word
  | identifier {word : List Char} : IsWord word → Ends Char.isAlphanum rest →
      (∀ keyword : Keyword, keyword.word ≠ String.ofList word) → IsLexeme rest .identifier word
  | number {run : List Char} : IsRun run → Ends isNumeric rest → run.count '.' ≤ 1 →
      IsLexeme rest .number run
  | malformedNumber {run : List Char} : IsRun run → Ends isNumeric rest → 1 < run.count '.' →
      IsLexeme rest .malformedNumber run
  | char {c : Char} : c.isAlpha = false → c.isDigit = false → c ∉ blanks → c ≠ '#' →
      IsLexeme rest (.char c) [c]

/-- The tokens into which a text is cut that stands at a byte offset, the end of input last. -/
inductive Tokenizes : Nat → List Char → List Token → Prop
  | finish {offset : Nat} {gap : List Char} : Gap [] gap →
      Tokenizes offset gap
        [⟨.endOfInput, "", offset + Text.byteSize gap, offset + Text.byteSize gap⟩]
  | token {offset : Nat} {gap lexeme rest : List Char} {kind : TokenKind} {tokens : List Token} :
      Gap (lexeme ++ rest) gap → IsLexeme rest kind lexeme →
      Tokenizes (offset + Text.byteSize gap + Text.byteSize lexeme) rest tokens →
      Tokenizes offset (gap ++ lexeme ++ rest)
        (⟨kind, String.ofList lexeme, offset + Text.byteSize gap,
          offset + Text.byteSize gap + Text.byteSize lexeme⟩ :: tokens)

theorem mem_blanks_iff {c : Char} : c ∈ blanks ↔ isBlank c = true := by
  simp only [blanks, isBlank, List.mem_cons, List.not_mem_nil, or_false, Bool.or_eq_true,
    Bool.and_eq_true, decide_eq_true_eq, ← Char.toNat_inj, Char.reduceToNat]
  omega

theorem isBlank_of_endsComment {c : Char} (h : endsComment c = true) : isBlank c = true := by
  simp only [endsComment, Bool.or_eq_true, decide_eq_true_eq] at h
  rcases h with rfl | rfl <;> rfl

theorem endsComment_eq_false_iff {c : Char} : endsComment c = false ↔ c ≠ '\n' ∧ c ≠ '\r' := by
  simp [endsComment]

/-- A text that starts with neither a blank nor a comment. -/
def StartsToken (rest : List Char) : Prop := Ends (fun c ↦ isBlank c || c = '#') rest

theorem splitGap_of_startsToken {rest : List Char} (h : StartsToken rest) :
    splitGap false rest = ([], rest) := by
  cases rest with
  | nil => rfl
  | cons c cs =>
    have hc := h c rfl
    simp only [splitGap, hc, Bool.false_eq_true, if_false]

theorem startsToken_splitGap (inComment : Bool) (cs : List Char) :
    StartsToken (splitGap inComment cs).2 := by
  induction cs generalizing inComment with
  | nil =>
    intro c hc
    cases inComment <;> simp [splitGap] at hc
  | cons c cs ih =>
    cases inComment with
    | true => exact ih _
    | false =>
      simp only [splitGap]
      split
      · exact ih _
      · next hc =>
        intro d hd
        obtain rfl : c = d := by simpa using hd
        simpa using hc

theorem splitGap_body {body tail : List Char} (hbody : ∀ c ∈ body, c ≠ '\n' ∧ c ≠ '\r')
    (htail : ∀ c ∈ tail.head?, c = '\n' ∨ c = '\r') :
    splitGap true (body ++ tail) =
      (body ++ (splitGap false tail).1, (splitGap false tail).2) := by
  induction body with
  | nil =>
    cases tail with
    | nil => rfl
    | cons c cs =>
      have hc : endsComment c = true := by simpa [endsComment] using htail c rfl
      have hhash : c ≠ '#' := by
        rintro rfl
        exact absurd hc (by decide)
      simp [splitGap, hc, isBlank_of_endsComment hc, hhash]
  | cons c body ih =>
    have hc : endsComment c = false := endsComment_eq_false_iff.mpr (hbody c (by simp))
    simp [splitGap, hc, ih fun d hd ↦ hbody d (by simp [hd])]

/-- The rules leave no choice where a gap ends. -/
theorem splitGap_of_gap {gap rest : List Char} (hgap : Gap rest gap) (hrest : StartsToken rest) :
    splitGap false (gap ++ rest) = (gap, rest) := by
  induction hgap with
  | empty => exact splitGap_of_startsToken hrest
  | @blank c gap hc _ ih =>
    have hblank := mem_blanks_iff.mp hc
    have hhash : c ≠ '#' := by
      rintro rfl
      exact absurd hblank (by decide)
    simp [splitGap, hblank, hhash, ih]
  | @comment body gap hbody htail _ ih =>
    have hsplit := splitGap_body hbody htail
    rw [ih] at hsplit
    simp [splitGap, hsplit]

theorem gap_splitGap (cs : List Char) :
    Gap (splitGap false cs).2 (splitGap false cs).1 ∧
      ∃ body gap, (splitGap true cs).1 = body ++ gap ∧ (∀ c ∈ body, c ≠ '\n' ∧ c ≠ '\r') ∧
        (∀ c ∈ (gap ++ (splitGap true cs).2).head?, c = '\n' ∨ c = '\r') ∧
        Gap (splitGap true cs).2 gap := by
  induction cs with
  | nil => exact ⟨.empty, [], [], rfl, by simp, by simp [splitGap], .empty⟩
  | cons c cs ih =>
    obtain ⟨hclosed, body, gap, hopen, hbody, htail, hgap⟩ := ih
    constructor
    · by_cases hhash : c = '#'
      · subst hhash
        simpa [splitGap, hopen] using Gap.comment hbody htail hgap
      · by_cases hblank : isBlank c = true
        · simpa [splitGap, hblank, hhash] using Gap.blank (mem_blanks_iff.mpr hblank) hclosed
        · simpa [splitGap, hblank, hhash] using Gap.empty
    · by_cases hend : endsComment c = true
      · refine ⟨[], c :: (splitGap false cs).1, ?_, by simp, ?_, ?_⟩
        · simp [splitGap, hend]
        · simpa [splitGap, hend, endsComment] using hend
        · simpa [splitGap, hend] using
            Gap.blank (mem_blanks_iff.mpr (isBlank_of_endsComment hend)) hclosed
      · have hc := endsComment_eq_false_iff.mp (Bool.eq_false_iff.mpr hend)
        refine ⟨c :: body, gap, ?_, ?_, ?_, ?_⟩
        · simp [splitGap, hend, hopen]
        · intro d hd
          rcases List.mem_cons.mp hd with rfl | hd
          · exact hc
          · exact hbody d hd
        · simpa [splitGap, hend] using htail
        · simpa [splitGap, hend] using hgap

/-! ## Lexemes -/

theorem takeWhile_of_ends {p : Char → Bool} {body rest : List Char} (hbody : ∀ c ∈ body, p c = true)
    (hrest : Ends p rest) : (body ++ rest).takeWhile p = body := by
  rw [List.takeWhile_append_of_pos hbody]
  cases rest with
  | nil => simp
  | cons c cs => simp [hrest c rfl]

theorem ends_drop_takeWhile (p : Char → Bool) (cs : List Char) :
    Ends p (cs.drop (cs.takeWhile p).length) := by
  have hdrop : cs.drop (cs.takeWhile p).length = cs.dropWhile p := by
    refine List.append_cancel_left (?_ : cs.takeWhile p ++ _ = cs.takeWhile p ++ _)
    rw [takeWhile_append_drop_length, List.takeWhile_append_dropWhile]
  intro c hc
  have h := List.head?_dropWhile_not p cs
  rw [hdrop] at hc
  simp only [Option.mem_def] at hc
  rwa [hc] at h

theorem isAlpha_iff {c : Char} :
    c.isAlpha = true ↔
      (65 ≤ c.toNat ∧ c.toNat ≤ 90) ∨ (97 ≤ c.toNat ∧ c.toNat ≤ 122) := by
  change (decide (65 ≤ c.val ∧ c.val ≤ 90) ||
    (decide (97 ≤ c.val) && decide (c.val ≤ 122))) = true ↔ _
  simp only [Bool.or_eq_true, Bool.and_eq_true, decide_eq_true_iff]
  exact or_congr (and_congr UInt32.le_iff_toNat_le UInt32.le_iff_toNat_le)
    (and_congr UInt32.le_iff_toNat_le UInt32.le_iff_toNat_le)

theorem not_separator_of_isAlpha {c : Char} (h : c.isAlpha = true) :
    (isBlank c || c = '#') = false := by
  rw [isAlpha_iff] at h
  simp only [isBlank, Bool.or_eq_false_iff, Bool.and_eq_false_iff, decide_eq_false_iff_not,
    ← Char.toNat_inj, Char.reduceToNat]
  omega

theorem not_separator_of_isDigit {c : Char} (h : c.isDigit = true) :
    (isBlank c || c = '#') = false := by
  simp only [Char.isDigit_iff_toNat, Char.reduceToNat] at h
  simp only [isBlank, Bool.or_eq_false_iff, Bool.and_eq_false_iff, decide_eq_false_iff_not,
    ← Char.toNat_inj, Char.reduceToNat]
  omega

theorem isAlpha_eq_false_of_isDigit {c : Char} (h : c.isDigit = true) : c.isAlpha = false := by
  simp only [Char.isDigit_iff_toNat, Char.reduceToNat] at h
  by_contra halpha
  rw [Bool.not_eq_false, isAlpha_iff] at halpha
  omega

theorem firstLexeme_of_isWord {word rest : List Char} (hword : IsWord word)
    (hrest : Ends Char.isAlphanum rest) : firstLexeme (word ++ rest) = word := by
  obtain @⟨c, cs, hc, hcs⟩ := hword
  simp [firstLexeme, hc, takeWhile_of_ends hcs hrest]

theorem firstLexeme_of_isRun {run rest : List Char} (hrun : IsRun run)
    (hrest : Ends isNumeric rest) : firstLexeme (run ++ rest) = run := by
  obtain @⟨c, cs, hc, hcs⟩ := hrun
  have hnumeric : ∀ d ∈ cs, isNumeric d = true := by simpa [isNumeric] using hcs
  simp [firstLexeme, hc, isAlpha_eq_false_of_isDigit hc, takeWhile_of_ends hnumeric hrest]

theorem startsToken_of_isWord {word : List Char} (hword : IsWord word) (rest : List Char) :
    StartsToken (word ++ rest) := by
  obtain @⟨c, cs, hc, -⟩ := hword
  intro d hd
  obtain rfl : c = d := by simpa using hd
  exact not_separator_of_isAlpha hc

theorem startsToken_of_isRun {run : List Char} (hrun : IsRun run) (rest : List Char) :
    StartsToken (run ++ rest) := by
  obtain @⟨c, cs, hc, -⟩ := hrun
  intro d hd
  obtain rfl : c = d := by simpa using hd
  exact not_separator_of_isDigit hc

theorem IsWord.isAlphanum {word : List Char} (h : IsWord word) :
    ∀ c ∈ word, c.isAlphanum = true := by
  obtain ⟨hc, hcs⟩ := h
  exact List.forall_mem_cons.mpr ⟨by rw [Char.isAlphanum, hc, Bool.true_or], hcs⟩

theorem IsRun.isNumeric {run : List Char} (h : IsRun run) : ∀ c ∈ run, isNumeric c = true := by
  obtain ⟨hc, hcs⟩ := h
  simpa [ExprLang.isNumeric] using And.intro (Or.inl hc) hcs

theorem kindOf_of_isWord {word : List Char} (hword : IsWord word) : kindOf word =
    match Keyword.ofWord? (String.ofList word) with
    | some keyword => .keyword keyword
    | none => .identifier := by
  obtain ⟨hc, -⟩ := hword
  exact if_pos hc

theorem kindOf_of_isRun {run : List Char} (hrun : IsRun run) :
    kindOf run = if run.count '.' ≤ 1 then .number else .malformedNumber := by
  obtain @⟨c, cs, hc, -⟩ := hrun
  have hpoint : c ≠ '.' := by
    rintro rfl
    exact absurd hc (by decide)
  simp [kindOf, hc, isAlpha_eq_false_of_isDigit hc, hpoint]

theorem ofWord?_eq_none_iff {word : String} :
    Keyword.ofWord? word = none ↔ ∀ keyword : Keyword, keyword.word ≠ word := by
  rw [Option.eq_none_iff_forall_ne_some]
  simp [Keyword.ofWord?_eq_some_iff]

namespace IsLexeme

variable {rest lexeme : List Char} {kind : TokenKind}

theorem startsToken (h : IsLexeme rest kind lexeme) : StartsToken (lexeme ++ rest) := by
  cases h with
  | keyword hword => exact startsToken_of_isWord hword rest
  | identifier hword => exact startsToken_of_isWord hword rest
  | number hrun => exact startsToken_of_isRun hrun rest
  | malformedNumber hrun => exact startsToken_of_isRun hrun rest
  | @char c _ _ hblank hhash =>
    intro d hd
    obtain rfl : c = d := by simpa using hd
    rw [mem_blanks_iff, Bool.not_eq_true] at hblank
    simp [hblank, hhash]

theorem firstLexeme_eq (h : IsLexeme rest kind lexeme) :
    firstLexeme (lexeme ++ rest) = lexeme := by
  cases h with
  | keyword hword hrest => exact firstLexeme_of_isWord hword hrest
  | identifier hword hrest => exact firstLexeme_of_isWord hword hrest
  | number hrun hrest => exact firstLexeme_of_isRun hrun hrest
  | malformedNumber hrun hrest => exact firstLexeme_of_isRun hrun hrest
  | char halpha hdigit => simp [firstLexeme, halpha, hdigit]

theorem kindOf_eq (h : IsLexeme rest kind lexeme) : kindOf lexeme = kind := by
  cases h with
  | keyword hword _ hkeyword =>
    rw [kindOf_of_isWord hword, Keyword.ofWord?_eq_some_iff.mpr hkeyword]
  | identifier hword _ hkeyword =>
    rw [kindOf_of_isWord hword, ofWord?_eq_none_iff.mpr hkeyword]
  | number hrun _ hcount => rw [kindOf_of_isRun hrun, if_pos hcount]
  | malformedNumber hrun _ hcount => rw [kindOf_of_isRun hrun, if_neg (by omega)]
  | char halpha hdigit => simp [kindOf, halpha, hdigit]

theorem ne_nil (h : IsLexeme rest kind lexeme) : lexeme ≠ [] := by
  cases h with
  | keyword hword => cases hword; simp
  | identifier hword => cases hword; simp
  | number hrun => cases hrun; simp
  | malformedNumber hrun => cases hrun; simp
  | char => simp

/-- A lexeme is one whatever follows, as long as nothing extends it. -/
theorem of_ends {rest' : List Char} (h : IsLexeme rest kind lexeme)
    (hword : Ends Char.isAlphanum rest → Ends Char.isAlphanum rest')
    (hrun : Ends isNumeric rest → Ends isNumeric rest') : IsLexeme rest' kind lexeme := by
  cases h with
  | keyword hlexeme hrest hkeyword => exact .keyword hlexeme (hword hrest) hkeyword
  | identifier hlexeme hrest hkeyword => exact .identifier hlexeme (hword hrest) hkeyword
  | number hlexeme hrest hcount => exact .number hlexeme (hrun hrest) hcount
  | malformedNumber hlexeme hrest hcount => exact .malformedNumber hlexeme (hrun hrest) hcount
  | char halpha hdigit hblank hhash => exact .char halpha hdigit hblank hhash

theorem alone (h : IsLexeme rest kind lexeme) : IsLexeme [] kind lexeme :=
  h.of_ends (fun _ ↦ by simp [Ends]) fun _ ↦ by simp [Ends]

theorem eq_of_char {c : Char} (h : IsLexeme rest (.char c) lexeme) : lexeme = [c] := by
  cases h
  rfl

theorem eq_of_keyword {keyword : Keyword} (h : IsLexeme rest (.keyword keyword) lexeme) :
    keyword.word = String.ofList lexeme := by
  cases h
  assumption

theorem kind_ne_endOfInput (h : IsLexeme rest kind lexeme) : kind ≠ .endOfInput := by
  cases h <;> simp

end IsLexeme

theorem isLexeme_word {word rest : List Char} (hword : IsWord word)
    (hrest : Ends Char.isAlphanum rest) : IsLexeme rest (kindOf word) word := by
  rw [kindOf_of_isWord hword]
  split
  · next keyword hkeyword =>
    exact .keyword hword hrest (Keyword.ofWord?_eq_some_iff.mp hkeyword)
  · next hnone => exact .identifier hword hrest (ofWord?_eq_none_iff.mp hnone)

theorem isLexeme_run {run rest : List Char} (hrun : IsRun run) (hrest : Ends isNumeric rest) :
    IsLexeme rest (kindOf run) run := by
  rw [kindOf_of_isRun hrun]
  split
  · next hcount => exact .number hrun hrest hcount
  · next hcount => exact .malformedNumber hrun hrest (by omega)

/-- The text of the first token is as long as its class allows. -/
theorem isLexeme_firstLexeme {cs : List Char} (hcs : StartsToken cs) (hne : cs ≠ []) :
    IsLexeme (cs.drop (firstLexeme cs).length) (kindOf (firstLexeme cs)) (firstLexeme cs) := by
  obtain ⟨c, cs, rfl⟩ := List.exists_cons_of_ne_nil hne
  simp only [firstLexeme]
  split
  · next halpha =>
    apply isLexeme_word
    · exact .intro halpha fun d hd ↦ List.mem_takeWhile_imp hd
    · simpa using ends_drop_takeWhile Char.isAlphanum cs
  · next halpha =>
    split
    · next hdigit =>
      apply isLexeme_run
      · exact .intro hdigit fun d hd ↦ by simpa [isNumeric] using List.mem_takeWhile_imp hd
      · simpa using ends_drop_takeWhile isNumeric cs
    · next hdigit =>
      have hc : (isBlank c || c = '#') = false := hcs c rfl
      rw [Bool.or_eq_false_iff, decide_eq_false_iff_not] at hc
      have hkind : kindOf [c] = .char c := by simp [kindOf, halpha, hdigit]
      rw [hkind]
      exact .char (by simpa using halpha) (by simpa using hdigit)
        (by rw [mem_blanks_iff, hc.1]; simp) hc.2

/-! ## The one tokenization -/

theorem tokenizes_tokens (lexer : Lexer) : Tokenizes lexer.offset lexer.rest lexer.tokens := by
  induction hlength : lexer.rest.length using Nat.strongRecOn generalizing lexer with
  | _ length ih =>
    have hgap := (gap_splitGap lexer.rest).1
    have hstart := startsToken_splitGap false lexer.rest
    by_cases hkind : lexer.next.1.kind = .endOfInput
    · have hrest := lexer.next_kind_eq_endOfInput_iff.mp hkind
      have htext : (splitGap false lexer.rest).1 = lexer.rest := by
        simpa [hrest] using splitGap_append false lexer.rest
      rw [hrest, htext] at hgap
      rw [lexer.tokens_of_endOfInput hkind]
      have hfinish : Tokenizes lexer.offset lexer.rest _ := .finish hgap
      simpa [Lexer.next, hrest, htext, firstLexeme, kindOf] using hfinish
    · have hne := mt lexer.next_kind_eq_endOfInput_iff.mpr hkind
      have hlt := lexer.length_rest_next_lt hkind
      have htail := ih _ (hlength ▸ hlt) lexer.next.2 rfl
      rw [lexer.tokens_of_ne_endOfInput hkind]
      rw [← firstLexeme_append_drop (splitGap false lexer.rest).2] at hgap
      have htokens := Tokenizes.token hgap (isLexeme_firstLexeme hstart hne) htail
      rwa [← Lexer.next_rest, lexer.gap_append_lexeme_append_rest] at htokens

theorem tokens_of_tokenizes {offset : Nat} {text : List Char} {tokens : List Token}
    (h : Tokenizes offset text tokens) (lexer : Lexer) (hoffset : lexer.offset = offset)
    (hrest : lexer.rest = text) : tokens = lexer.tokens := by
  induction h generalizing lexer with
  | @finish offset gap hgap =>
    have hsplit := splitGap_of_gap hgap (by simp [StartsToken, Ends])
    rw [List.append_nil] at hsplit
    have hkind : lexer.next.1.kind = .endOfInput := by
      rw [Lexer.next_kind_eq_endOfInput_iff, hrest, hsplit]
    rw [lexer.tokens_of_endOfInput hkind]
    simp [Lexer.next, hsplit, hoffset, hrest, firstLexeme, kindOf]
  | @token offset gap lexeme rest kind tokens hgap hlexeme _ ih =>
    have hsplit := splitGap_of_gap hgap hlexeme.startsToken
    rw [← List.append_assoc, ← hrest] at hsplit
    have htoken : lexer.next.1 = ⟨kind, String.ofList lexeme, offset + Text.byteSize gap,
        offset + Text.byteSize gap + Text.byteSize lexeme⟩ := by
      simp [Lexer.next, hsplit, hlexeme.firstLexeme_eq, hlexeme.kindOf_eq, hoffset]
    have hkind : lexer.next.1.kind ≠ .endOfInput := by
      rw [htoken]
      exact hlexeme.kind_ne_endOfInput
    rw [lexer.tokens_of_ne_endOfInput hkind, htoken]
    congr 1
    apply ih
    · rw [Lexer.next_offset, htoken]
    · rw [Lexer.next_rest, hsplit, hlexeme.firstLexeme_eq, List.drop_left]

theorem tokenizes_iff (lexer : Lexer) (tokens : List Token) :
    Tokenizes lexer.offset lexer.rest tokens ↔ tokens = lexer.tokens := by
  constructor
  · intro h
    exact tokens_of_tokenizes h lexer rfl rfl
  · rintro rfl
    exact tokenizes_tokens lexer

namespace Tokenizes

/-- Every token stands in the text at its offsets. -/
theorem exists_append {offset : Nat} {text : List Char} {tokens : List Token}
    (h : Tokenizes offset text tokens) (before : List Char)
    (hbefore : Text.byteSize before = offset) (token : Token) (htoken : token ∈ tokens) :
    ∃ left right : List Char,
      before ++ text = left ++ token.lexeme.toList ++ right ∧
      token.start = Text.byteSize left ∧
      token.stop = Text.byteSize left + Text.byteSize token.lexeme.toList := by
  induction h generalizing before with
  | @finish offset gap hgap =>
    obtain rfl := List.mem_singleton.mp htoken
    exact ⟨before ++ gap, [], by simp, by simp [hbefore], by simp [hbefore]⟩
  | @token offset gap lexeme rest kind tokens _ _ _ ih =>
    rcases List.mem_cons.mp htoken with rfl | htoken
    · exact ⟨before ++ gap, rest, by simp, by simp [hbefore], by simp [hbefore]⟩
    · have h := ih (before ++ gap ++ lexeme) (by simp [hbefore, Nat.add_assoc]) htoken
      simpa using h

theorem le_start {offset : Nat} {text : List Char} {tokens : List Token}
    (h : Tokenizes offset text tokens) (token : Token) (htoken : token ∈ tokens) :
    offset ≤ token.start := by
  induction h with
  | finish =>
    obtain rfl := List.mem_singleton.mp htoken
    exact Nat.le_add_right _ _
  | token _ _ _ ih =>
    rcases List.mem_cons.mp htoken with rfl | htoken
    · exact Nat.le_add_right _ _
    · have := ih htoken
      omega

theorem pairwise {offset : Nat} {text : List Char} {tokens : List Token}
    (h : Tokenizes offset text tokens) :
    tokens.Pairwise fun token other ↦ token.stop ≤ other.start := by
  induction h with
  | finish => exact List.pairwise_singleton _ _
  | token _ _ h ih => exact List.pairwise_cons.mpr ⟨fun other ↦ h.le_start other, ih⟩

theorem start_lt_stop {offset : Nat} {text : List Char} {tokens : List Token}
    (h : Tokenizes offset text tokens) (token : Token) (htoken : token ∈ tokens)
    (hkind : token.kind ≠ .endOfInput) : token.start < token.stop := by
  induction h with
  | finish =>
    obtain rfl := List.mem_singleton.mp htoken
    exact absurd rfl hkind
  | @token offset gap lexeme _ _ _ _ hlexeme _ ih =>
    rcases List.mem_cons.mp htoken with rfl | htoken
    · have hlength := List.length_pos_iff.mpr hlexeme.ne_nil
      have hsize := Text.length_le_byteSize lexeme
      have hlt : 0 < Text.byteSize lexeme := by omega
      exact Nat.lt_add_of_pos_right hlt
    · exact ih htoken

/-- The end of input stands at the end of the text, and nothing else is one. -/
theorem exists_concat {offset : Nat} {text : List Char} {tokens : List Token}
    (h : Tokenizes offset text tokens) : ∃ before : List Token,
      tokens = before ++
        [⟨.endOfInput, "", offset + Text.byteSize text, offset + Text.byteSize text⟩] := by
  induction h with
  | finish => exact ⟨[], rfl⟩
  | @token offset gap lexeme rest kind _ _ _ _ ih =>
    obtain ⟨before, rfl⟩ := ih
    refine ⟨⟨kind, String.ofList lexeme, offset + Text.byteSize gap,
      offset + Text.byteSize gap + Text.byteSize lexeme⟩ :: before, ?_⟩
    simp [Nat.add_assoc]

end Tokenizes

namespace Lexer

theorem token_start_lt (lexer : Lexer) {i j : Nat} (hij : i < j) (hj : j < lexer.tokens.length) :
    (lexer.token i).start < (lexer.token j).start := by
  have htokens := tokenizes_tokens lexer
  have hi : i < lexer.tokens.length := by omega
  have hkind : (lexer.token i).kind ≠ .endOfInput := by
    rw [Ne, token_kind_eq_endOfInput_iff]
    omega
  have hlt := htokens.start_lt_stop lexer.tokens[i] (List.getElem_mem hi)
  have hle := List.pairwise_iff_getElem.mp htokens.pairwise i j hi hj hij
  rw [lexer.tokens_getElem i hi] at hlt hle
  rw [lexer.tokens_getElem j hj] at hle
  exact (hlt hkind).trans_le hle

theorem token_start_mono (lexer : Lexer) : Monotone fun n ↦ (lexer.token n).start := by
  apply monotone_nat_of_le_succ
  intro n
  by_cases hn : n + 1 < lexer.tokens.length
  · exact (lexer.token_start_lt n.lt_succ_self hn).le
  · rw [lexer.token_eq_getLast n (by omega), lexer.token_eq_getLast (n + 1) (by omega)]

end Lexer

theorem utf8Len_eq_byteSize (cs : List Char) : String.utf8Len cs = Text.byteSize cs := by
  induction cs with
  | nil => rfl
  | cons c cs ih => simp [ih, Nat.add_comm]

theorem byteSize_toList (text : String) : Text.byteSize text.toList = text.utf8ByteSize := by
  conv_rhs => rw [← text.ofList_toList, String.utf8ByteSize_ofList, utf8Len_eq_byteSize]

/-- The lexeme is the text of the source between two character boundaries. -/
def Token.Spans (source : String) (token : Token) : Prop :=
  String.Pos.Raw.IsValid source ⟨token.start⟩ ∧ String.Pos.Raw.IsValid source ⟨token.stop⟩ ∧
    String.Pos.Raw.extract source ⟨token.start⟩ ⟨token.stop⟩ = token.lexeme

theorem isValid_of_append {source : String} {left right : List Char}
    (hsource : source.toList = left ++ right) :
    String.Pos.Raw.IsValid source ⟨Text.byteSize left⟩ := by
  rw [String.Pos.Raw.isValid_iff_exists_append]
  refine ⟨String.ofList left, String.ofList right, ?_, ?_⟩
  · rw [← String.ofList_append, ← hsource, String.ofList_toList]
  · rw [String.Pos.Raw.ext_iff, String.byteIdx_rawEndPos, String.utf8ByteSize_ofList,
      utf8Len_eq_byteSize]

theorem spans_of_append {source : String} {token : Token} {left right : List Char}
    (hsource : source.toList = left ++ token.lexeme.toList ++ right)
    (hstart : token.start = Text.byteSize left)
    (hstop : token.stop = Text.byteSize left + Text.byteSize token.lexeme.toList) :
    token.Spans source := by
  refine ⟨?_, ?_, ?_⟩
  · rw [hstart]
    exact isValid_of_append (hsource.trans (List.append_assoc _ _ _))
  · rw [hstop, ← Text.byteSize_append]
    exact isValid_of_append hsource
  · have h := String.extract_of_valid left token.lexeme.toList right
    rwa [← hsource, String.ofList_toList, utf8Len_eq_byteSize, utf8Len_eq_byteSize, ← hstop,
      ← hstart, String.ofList_toList] at h

/-- There is one way to cut a source into gaps and lexemes.  The lexer reads its tokens in order and
then the end of input for ever; each token has the text between its offsets, and no two overlap. -/
theorem tokenization_unique (source : String) (file : Option String) :
    (∀ tokens : List Token,
      Tokenizes 0 source.toList tokens ↔ tokens = (Lexer.ofSource source file).tokens) ∧
    (∀ n : Nat, (Lexer.ofSource source file).token n =
      (Lexer.ofSource source file).tokens[n]?.getD
        ⟨.endOfInput, "", source.utf8ByteSize, source.utf8ByteSize⟩) ∧
    (∃ before : List Token, (Lexer.ofSource source file).tokens =
      before ++ [⟨.endOfInput, "", source.utf8ByteSize, source.utf8ByteSize⟩]) ∧
    (∀ token ∈ (Lexer.ofSource source file).tokens, token.Spans source ∧
      (token.kind = .endOfInput ∨ token.start < token.stop)) ∧
    (Lexer.ofSource source file).tokens.Pairwise fun token other ↦ token.stop ≤ other.start := by
  set lexer := Lexer.ofSource source file
  have htokens : Tokenizes 0 source.toList lexer.tokens := tokenizes_tokens lexer
  obtain ⟨before, hbefore⟩ := htokens.exists_concat
  rw [Nat.zero_add, byteSize_toList] at hbefore
  refine ⟨tokenizes_iff lexer, ?_, ⟨before, hbefore⟩, ?_, htokens.pairwise⟩
  · intro n
    by_cases hn : n < lexer.tokens.length
    · rw [List.getElem?_eq_getElem hn, Option.getD_some, lexer.tokens_getElem n hn]
    · rw [List.getElem?_eq_none (by omega), Option.getD_none,
        lexer.token_eq_getLast n (by omega)]
      simp [hbefore]
  · intro token htoken
    obtain ⟨left, right, hsource, hstart, hstop⟩ := htokens.exists_append [] rfl token htoken
    refine ⟨spans_of_append hsource hstart hstop, ?_⟩
    by_cases hkind : token.kind = .endOfInput
    · exact .inl hkind
    · exact .inr (htokens.start_lt_stop token htoken hkind)

end ExprLang
