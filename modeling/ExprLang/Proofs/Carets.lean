import ExprLang.Proofs.Diagnoses
import ExprLang.Proofs.Safety
import ExprLang.Proofs.Views

/-!
# The Caret under a Token

Columns count bytes, but a caret is placed in characters.  The two agree under the token at which a
parse fails.  The tokens before it are symbols of the grammar, which are spelled in ASCII, and a
comment that is not the last thing in the source ends its line.  So nothing else than ASCII stands
before the token on its line.
-/

namespace ExprLang

def IsAscii (cs : List Char) : Prop := ∀ c ∈ cs, c.toNat < 128

theorem IsAscii.byteSize_eq {cs : List Char} (h : IsAscii cs) : Text.byteSize cs = cs.length := by
  induction cs with
  | nil => rfl
  | cons c cs ih =>
    rw [IsAscii, List.forall_mem_cons] at h
    have hsize : c.utf8Size = 1 := by
      rw [Char.utf8Size_eq_one_iff, UInt32.le_iff_toNat_le]
      exact Nat.le_of_lt_succ h.1
    rw [Text.byteSize_cons, hsize, ih h.2, List.length_cons, Nat.add_comm]

theorem toNat_lt_of_isAlphanum {c : Char} (h : c.isAlphanum = true) : c.toNat < 128 := by
  rw [Char.isAlphanum, Bool.or_eq_true, isAlpha_iff, Char.isDigit_iff_toNat] at h
  simp only [Char.reduceToNat] at h
  omega

theorem toNat_lt_of_isNumeric {c : Char} (h : isNumeric c = true) : c.toNat < 128 := by
  rw [isNumeric, Bool.or_eq_true, decide_eq_true_eq] at h
  rcases h with h | rfl
  · exact toNat_lt_of_isAlphanum (by rw [Char.isAlphanum, h, Bool.or_true])
  · decide

/-- The symbols of the grammar are spelled in ASCII. -/
theorem Symbol.Terminal.isAscii {symbol : Symbol} (h : symbol.Terminal) :
    IsAscii symbol.lexeme.toList := by
  cases h with
  | name h =>
    cases h.1 with
    | identifier hword => exact fun c hc ↦ toNat_lt_of_isAlphanum (hword.isAlphanum c hc)
  | number h =>
    cases h.1 with
    | number hrun => exact fun c hc ↦ toNat_lt_of_isNumeric (hrun.isNumeric c hc)
  | @char c hc =>
    rw [Symbol.char, String.toList_ofList, IsAscii, List.forall_mem_singleton]
    simp only [List.mem_cons, List.not_mem_nil, or_false] at hc
    rcases hc with rfl | rfl | rfl | rfl | rfl | rfl | rfl | rfl | rfl | rfl | rfl | rfl | rfl <;>
      decide
  | keyword keyword =>
    cases (properKeyword keyword).1 with
    | keyword hword => exact fun c hc ↦ toNat_lt_of_isAlphanum (hword.isAlphanum c hc)

theorem IsAscii.lastLine {cs : List Char} (h : IsAscii cs) : IsAscii (Text.lastLine cs) :=
  fun c hc ↦ h c (Text.mem_of_mem_lastLine hc)

theorem IsAscii.append_lastLine {cs ds : List Char} (hcs : IsAscii (Text.lastLine cs))
    (hds : IsAscii (Text.lastLine ds)) : IsAscii (Text.lastLine (cs ++ ds)) :=
  fun c hc ↦ (Text.mem_lastLine_append hc).elim (hcs c) (hds c)

/-- A comment in front of a token ends its line, so only blanks are left on the line of the
token. -/
theorem Gap.isAscii_lastLine {gap rest : List Char} (h : Gap rest gap) (hrest : StartsToken rest)
    (hne : rest ≠ []) (hreturn : '\r' ∉ gap) : IsAscii (Text.lastLine gap) := by
  induction h with
  | empty =>
    rw [Text.lastLine_of_notMem List.not_mem_nil]
    exact List.forall_mem_nil _
  | @blank c gap hc _ ih =>
    intro d hd
    rw [← List.singleton_append] at hd
    rcases Text.mem_lastLine_append hd with hd | hd
    · obtain rfl := List.mem_singleton.mp (Text.mem_of_mem_lastLine hd)
      rw [mem_blanks_iff, isBlank, Bool.or_eq_true, Bool.and_eq_true] at hc
      simp only [decide_eq_true_eq] at hc
      omega
    · exact ih (fun h ↦ hreturn (List.mem_cons_of_mem c h)) d hd
  | @comment body gap _ htail _ ih =>
    have hreturn' : '\r' ∉ gap := fun h ↦ hreturn (by simp [h])
    cases gap with
    | nil =>
      obtain ⟨c, cs, rfl⟩ := List.exists_cons_of_ne_nil hne
      have hstart := hrest c rfl
      rcases htail c rfl with rfl | rfl <;> cases hstart
    | cons c gap =>
      rcases htail c rfl with rfl | rfl
      · have hline := ih hreturn'
        rw [← List.cons_append, Text.lastLine_newline]
        rwa [← List.nil_append ('\n' :: gap), Text.lastLine_newline] at hline
      · exact absurd List.mem_cons_self hreturn'

namespace Lexer

variable {lexer : Lexer} {source : String}

/-- The lexer stands in a source behind text that is in ASCII on its last line. -/
def StandsBehindAscii (lexer : Lexer) (source : String) : Prop :=
  ∃ before, source.toList = before ++ lexer.rest ∧ lexer.offset = Text.byteSize before ∧
    IsAscii (Text.lastLine before)

theorem standsBehindAscii_ofSource (source : String) (file : Option String) :
    (ofSource source file).StandsBehindAscii source :=
  ⟨[], rfl, rfl, fun _ hc ↦ absurd (Text.mem_of_mem_lastLine hc) List.not_mem_nil⟩

theorem isAscii_lastLine_gap (hreturn : '\r' ∉ lexer.rest)
    (hkind : lexer.next.1.kind ≠ .endOfInput) :
    IsAscii (Text.lastLine (splitGap false lexer.rest).1) := by
  apply (gap_splitGap lexer.rest).1.isAscii_lastLine (startsToken_splitGap false lexer.rest)
  · exact mt lexer.next_kind_eq_endOfInput_iff.mpr hkind
  · intro hgap
    apply hreturn
    rw [← splitGap_append false lexer.rest]
    exact List.mem_append_left _ hgap

theorem StandsBehindAscii.next (h : lexer.StandsBehindAscii source)
    (hreturn : '\r' ∉ source.toList) (hkind : lexer.next.1.kind ≠ .endOfInput)
    (hlexeme : IsAscii lexer.next.1.lexeme.toList) : lexer.next.2.StandsBehindAscii source := by
  obtain ⟨before, hsource, hoffset, hbefore⟩ := h
  have hgap := isAscii_lastLine_gap (fun h ↦ hreturn (by simp [hsource, h])) hkind
  rw [next_lexeme, String.toList_ofList] at hlexeme
  refine ⟨before ++ (splitGap false lexer.rest).1 ++ firstLexeme (splitGap false lexer.rest).2,
    ?_, ?_, (hbefore.append_lastLine hgap).append_lastLine hlexeme.lastLine⟩
  · calc
      source.toList = before ++ lexer.rest := hsource
      _ = before ++ ((splitGap false lexer.rest).1 ++ firstLexeme (splitGap false lexer.rest).2 ++
          lexer.next.2.rest) := by rw [lexer.gap_append_lexeme_append_rest]
      _ = _ := by simp only [List.append_assoc]
  · simp only [Lexer.next, hoffset, Text.byteSize_append]

/-- The text before a number of tokens, with the gap before the next one. -/
theorem exists_before_token (hreturn : '\r' ∉ source.toList) {n : Nat}
    (h : lexer.StandsBehindAscii source)
    (hterminal : ∀ m < n, (lexer.token m).symbol.Terminal) :
    ∃ left behind, source.toList = left ++ behind ∧
      Text.byteSize left = (lexer.token n).start ∧ StartsToken behind ∧
      if (lexer.token n).kind = .endOfInput then behind = [] else IsAscii (Text.lastLine left) := by
  induction n generalizing lexer with
  | zero =>
    obtain ⟨before, hsource, hoffset, hbefore⟩ := h
    refine ⟨before ++ (splitGap false lexer.rest).1, (splitGap false lexer.rest).2, ?_, ?_,
      startsToken_splitGap false lexer.rest, ?_⟩
    · rw [hsource, List.append_assoc, splitGap_append]
    · rw [Text.byteSize_append, ← hoffset]
      rfl
    · rw [token_zero]
      split
      · next hkind => exact lexer.next_kind_eq_endOfInput_iff.mp hkind
      · next hkind =>
        have hreturn' : '\r' ∉ lexer.rest := fun h ↦ hreturn (by simp [hsource, h])
        exact hbefore.append_lastLine (isAscii_lastLine_gap hreturn' hkind)
  | succ n ih =>
    have hfirst := hterminal 0 n.succ_pos
    have hkind : lexer.next.1.kind ≠ .endOfInput := hfirst.proper.1.kind_ne_endOfInput
    exact ih (h.next hreturn hkind hfirst.isAscii) fun m hm ↦ hterminal (m + 1) (by omega)

end Lexer

theorem isBlank_of_isIndent {c : Char} (h : Diagnostic.isIndent c = true) : isBlank c = true := by
  simp only [Diagnostic.isIndent, Bool.or_eq_true, decide_eq_true_eq] at h
  rcases h with rfl | rfl <;> rfl

namespace Text

/-- What stands before an offset: the text above its line, the indentation of the line, and the rest
of the line up to the offset. -/
structure Approach (source : List Char) (offset : Nat) where
  above : List Char
  indent : List Char
  between : List Char
  behind : List Char
  source_eq : source = above ++ (indent ++ between) ++ behind
  byteSize_eq : byteSize (above ++ (indent ++ between)) = offset
  above_ends : ∀ c ∈ above.getLast?, c = '\n'
  newline_notMem : '\n' ∉ indent ++ between
  isIndent : ∀ c ∈ indent, Diagnostic.isIndent c
  indent_ends : Ends Diagnostic.isIndent (between ++ behind)

/-- A token does not start in the indentation of its line. -/
theorem exists_approach {source left behind : List Char} {offset : Nat}
    (hsource : source = left ++ behind) (hoffset : byteSize left = offset)
    (h : StartsToken behind) :
    ∃ a : Approach source offset, a.indent ++ a.between = lastLine left := by
  subst hsource hoffset
  obtain ⟨above, hleft, habove⟩ := exists_append_lastLine left
  have hline := List.takeWhile_append_dropWhile (l := lastLine left) (p := Diagnostic.isIndent)
  refine ⟨⟨above, (lastLine left).takeWhile Diagnostic.isIndent,
    (lastLine left).dropWhile Diagnostic.isIndent, behind, ?_, ?_, habove, ?_, ?_, ?_⟩, hline⟩
  · rw [hline, ← hleft]
  · rw [hline, ← hleft]
  · rw [hline]
    exact newline_notMem_lastLine left
  · exact fun c hc ↦ List.mem_takeWhile_imp hc
  · intro c hc
    cases hrest : (lastLine left).dropWhile Diagnostic.isIndent with
    | nil =>
      rw [hrest] at hc
      have hstart := h c hc
      simp only [Bool.or_eq_false_iff] at hstart
      exact Bool.eq_false_iff.mpr (mt isBlank_of_isIndent (by simp [hstart.1]))
    | cons d rest =>
      have hd := List.head?_dropWhile_not Diagnostic.isIndent (lastLine left)
      simp [hrest] at hd hc
      rwa [← hc]

namespace Approach

variable {source : List Char} {offset : Nat}

theorem place_eq (a : Approach source offset) : place source offset =
    ⟨a.above.count '\n' + 1, a.indent ++ (a.between ++ firstLine a.behind),
      byteSize (a.indent ++ a.between)⟩ := by
  have hplace := place_append (a.above ++ (a.indent ++ a.between)) a.behind
  rwa [← a.source_eq, a.byteSize_eq, lastLine_append a.above_ends a.newline_notMem,
    List.count_append, List.count_eq_zero.mpr a.newline_notMem, Nat.add_zero,
    List.append_assoc] at hplace

theorem ends_firstLine (a : Approach source offset) :
    Ends Diagnostic.isIndent (a.between ++ firstLine a.behind) := by
  obtain ⟨rest, hrest⟩ := firstLine_prefix a.behind
  intro c hc
  apply a.indent_ends c
  rw [← hrest, ← List.append_assoc, List.head?_append, Option.mem_def.mp hc]
  rfl

theorem takeWhile_text (a : Approach source offset) :
    (place source offset).text.takeWhile Diagnostic.isIndent = a.indent := by
  rw [a.place_eq]
  exact takeWhile_of_ends a.isIndent a.ends_firstLine

theorem dropWhile_text (a : Approach source offset) :
    (place source offset).text.dropWhile Diagnostic.isIndent = a.between ++ firstLine a.behind := by
  have hsplit := List.takeWhile_append_dropWhile
    (l := (place source offset).text) (p := Diagnostic.isIndent)
  rw [a.takeWhile_text] at hsplit
  rw [a.place_eq] at hsplit ⊢
  exact List.append_cancel_left hsplit

end Approach

theorem trimEnd_firstLine (cs ds : List Char) :
    trimEnd (cs ++ firstLine ds) = trimEnd (cs ++ ds.takeWhile (· ≠ '\n')) := by
  rcases firstLine_eq ds with h | h
  · rw [h]
  · rw [h, ← List.append_assoc, trimEnd_newline]

end Text

namespace Diagnostic

variable {source : String} {diagnostic : Diagnostic}

/-- The caret stands as far to the right as the character at the end of the approach, counted in
characters of the text that is shown.  The column is not inside the indentation. -/
def PointsAt (diagnostic : Diagnostic) (source : String)
    (a : Text.Approach source.toList diagnostic.position.offset) : Prop :=
  Text.byteSize a.indent ≤ (diagnostic.place source).column ∧
    ∃ heading margin text fill : String,
      diagnostic.view source = heading ++ "\n" ++ (margin ++ text) ++ "\n" ++ (fill ++ "^") ∧
      margin = toString (diagnostic.place source).line ++ " | " ∧
      text = String.ofList (Text.trimEnd (a.between ++ a.behind.takeWhile (· ≠ '\n'))) ∧
      (∀ c ∈ fill.toList, c ≠ '\n' ∧ c ≠ '^') ∧
      fill.length = margin.length + a.between.length

theorem shownText_eq (a : Text.Approach source.toList diagnostic.position.offset) :
    diagnostic.shownText source =
      String.ofList (Text.trimEnd (a.between ++ a.behind.takeWhile (· ≠ '\n'))) := by
  rw [shownText, place, a.dropWhile_text, Text.trimEnd_firstLine]

theorem length_fill (a : Text.Approach source.toList diagnostic.position.offset)
    (h : IsAscii (a.indent ++ a.between)) :
    (diagnostic.fill source).length = (diagnostic.margin source).length + a.between.length := by
  have hcolumn : (diagnostic.place source).column = (a.indent ++ a.between).length := by
    rw [place, a.place_eq, h.byteSize_eq]
  have hindent : Text.byteSize a.indent = a.indent.length :=
    IsAscii.byteSize_eq fun c hc ↦ h c (List.mem_append_left a.between hc)
  have htext : (diagnostic.place source).text.takeWhile isIndent = a.indent := a.takeWhile_text
  have hbar (width : Nat) : (Text.alignRight ' ' (width + 2) "|").length = width + 2 :=
    length_alignRight (Nat.le_add_left 1 _)
  have hspace : " ".length = 1 := rfl
  have hbetween : " | ".length = 3 := rfl
  simp only [fill, margin, String.length_append, String.length_ofList, List.length_replicate, htext,
    hcolumn, hindent, List.length_append, hbar, hspace, hbetween]
  omega

/-- Where the text before the offset is in ASCII on its line, the caret stands right. -/
theorem pointsAt (a : Text.Approach source.toList diagnostic.position.offset)
    (h : IsAscii (a.indent ++ a.between)) : diagnostic.PointsAt source a := by
  constructor
  · rw [place, a.place_eq, Text.byteSize_append]
    exact Nat.le_add_right _ _
  · refine ⟨_, _, _, _, diagnostic.view_eq source, rfl, diagnostic.shownText_eq a, ?_,
      diagnostic.length_fill a h⟩
    intro c hc
    rcases mem_fill hc with rfl | rfl | rfl <;> decide

end Diagnostic

open ExprLang.Parser in
/-- A parse of a source without carriage returns fails at a token, and the caret stands under the
first character of that token.  At the end of input, which needs no line feed after a comment, the
last line has to be in ASCII for this. -/
theorem caret_under_token (source : String) (options : Options) (diagnostic : Diagnostic)
    (h : (parse source options).result = .error (.failure diagnostic))
    (hreturn : '\r' ∉ source.toList) :
    ∃ token ∈ (Lexer.ofSource source options.fileName).tokens,
      token.start = diagnostic.position.offset ∧
      ((token.kind = .endOfInput → IsAscii (Text.lastLine source.toList)) →
        ∃ a : Text.Approach source.toList diagnostic.position.offset,
          diagnostic.PointsAt source a) := by
  obtain ⟨n, cause, hhalt, hcompletable, -⟩ := exists_failure h
  obtain rfl := Halt.failure.inj hhalt
  have htoken := getElem?_tokens_of_completable hcompletable
  rw [skip_start_current] at htoken
  rw [skip_start_position]
  refine ⟨_, List.mem_of_getElem? htoken, rfl, fun hend ↦ ?_⟩
  have hterminal (m : Nat) (hm : m < n) :
      ((Lexer.ofSource source options.fileName).token m).symbol.Terminal := by
    have hlength : m < ((start source options).ahead n).length := by rwa [length_ahead]
    have hsymbol := hcompletable.terminal _ (List.getElem_mem hlength)
    rwa [getElem_ahead, skip_start_current] at hsymbol
  obtain ⟨left, behind, hsource, hoffset, hbehind, hline⟩ :=
    Lexer.exists_before_token hreturn (Lexer.standsBehindAscii_ofSource source options.fileName)
      hterminal
  obtain ⟨a, ha⟩ := Text.exists_approach hsource hoffset hbehind
  refine ⟨a, ?_⟩
  apply Diagnostic.pointsAt
  rw [ha]
  split at hline
  · next hkind =>
    rw [hline, List.append_nil] at hsource
    rw [← hsource]
    exact hend hkind
  · exact hline

theorem caret_under_token_behind_comment :
    let source := "# \u00e9\n\tf(, 1)"
    let diagnostic : Diagnostic := ⟨.unknownExpression "','", ⟨8, "shell"⟩⟩
    (parse source .default).result = .error (.failure diagnostic) ∧ '\r' ∉ source.toList ∧
      ∃ token ∈ (Lexer.ofSource source none).tokens, token.start = 8 ∧
        ((token.kind = .endOfInput → IsAscii (Text.lastLine source.toList)) →
          ∃ a : Text.Approach source.toList 8, diagnostic.PointsAt source a) := by
  have hresult : (parse "# \u00e9\n\tf(, 1)" .default).result =
      .error (.failure ⟨.unknownExpression "','", ⟨8, "shell"⟩⟩) :=
    Parse.result_of_diagnostic? (by decide +kernel)
  have hreturn : '\r' ∉ "# \u00e9\n\tf(, 1)".toList :=
    fun h ↦ absurd (List.elem_eq_true_of_mem h) (by decide)
  exact ⟨hresult, hreturn, caret_under_token _ .default _ hresult hreturn⟩

end ExprLang
