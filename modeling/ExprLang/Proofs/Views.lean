import ExprLang.Diagnostic
import ExprLang.Proofs.Places

/-!
# The View of a Diagnostic

The view ends with the source line and the line of the caret.  Whatever the source holds, the view
has five lines if the headline and the name of the source have one each.
-/

namespace ExprLang

namespace Text

/-- The feed at the end of a line is white space. -/
theorem trimEnd_newline (cs : List Char) : trimEnd (cs ++ ['\n']) = trimEnd cs := by
  rw [trimEnd, List.reverse_append, List.reverse_singleton, List.singleton_append,
    List.dropWhile_cons_of_pos rfl, trimEnd]

theorem mem_of_mem_trimEnd {cs : List Char} {c : Char} (h : c ∈ trimEnd cs) : c ∈ cs := by
  rw [trimEnd, List.mem_reverse] at h
  exact List.mem_reverse.mp ((List.dropWhile_sublist _).subset h)

theorem newline_notMem_trimEnd {cs line : List Char} (h : line ∈ lines cs) (p : Char → Bool)
    (hp : p '\n' = false) : '\n' ∉ trimEnd (line.dropWhile p) := by
  obtain ⟨front, hfront, rfl | rfl⟩ := exists_of_mem_lines h
  · exact fun hfeed ↦ hfront ((List.dropWhile_sublist p).subset (mem_of_mem_trimEnd hfeed))
  · have hfeed : ['\n'].dropWhile p = ['\n'] := List.dropWhile_cons_of_neg (by simp [hp])
    rw [List.dropWhile_append, hfeed]
    split
    · rw [← List.nil_append ['\n'], trimEnd_newline]
      exact List.not_mem_nil
    · rw [trimEnd_newline]
      exact fun hfeed ↦ hfront ((List.dropWhile_sublist p).subset (mem_of_mem_trimEnd hfeed))

variable (text : String)

theorem OneLine.count_eq_zero [OneLine text] : text.toList.count '\n' = 0 :=
  List.count_eq_zero.mpr fun h ↦ (OneLine.ne '\n' h).1 rfl

instance oneLine_toString (n : Nat) : OneLine (toString n) where
  ne c hc := by
    rw [Nat.toString_eq_ofList_toDigits, String.toList_ofList] at hc
    have hdigit := Nat.isDigit_of_mem_toDigits (by omega) (by omega) hc
    constructor <;> rintro rfl <;> exact absurd hdigit (by decide)

instance oneLine_alignRight (width : Nat) [OneLine text] : OneLine (alignRight ' ' width text) where
  ne c hc := by
    rw [alignRight, String.toList_append, String.toList_ofList, List.mem_append,
      List.mem_replicate] at hc
    rcases hc with ⟨-, rfl⟩ | hc
    · decide
    · exact OneLine.ne c hc

end Text

namespace Diagnostic

open Text

variable {source : String} {diagnostic : Diagnostic}

/-- The lines of the view before the source line. -/
def heading (diagnostic : Diagnostic) (source : String) : String :=
  let number := toString (diagnostic.place source).line
  "Error: " ++ diagnostic.cause.headline ++ "\n" ++ ("-> " ++ diagnostic.position.file) ++ "\n" ++
    alignRight ' ' (number.length + 2) "|"

/-- What stands before the source line on its line of the view. -/
def margin (diagnostic : Diagnostic) (source : String) : String :=
  toString (diagnostic.place source).line ++ " | "

/-- The source line without its indentation and the white space at its end. -/
def shownText (diagnostic : Diagnostic) (source : String) : String :=
  String.ofList (trimEnd ((diagnostic.place source).text.dropWhile isIndent))

/-- What stands before the caret on its line of the view. -/
def fill (diagnostic : Diagnostic) (source : String) : String :=
  let place := diagnostic.place source
  alignRight ' ' ((toString place.line).length + 2) "|" ++ " " ++
    String.ofList
      (List.replicate (place.column - byteSize (place.text.takeWhile isIndent)) '-')

theorem alignRight_succ_caret (n : Nat) :
    alignRight '-' (n + 1) "^" = String.ofList (List.replicate n '-') ++ "^" := rfl

/-- The source line and the line with the caret end the view. -/
theorem view_eq (diagnostic : Diagnostic) (source : String) :
    diagnostic.view source = diagnostic.heading source ++ "\n" ++
      (diagnostic.margin source ++ diagnostic.shownText source) ++ "\n" ++
      (diagnostic.fill source ++ "^") := by
  have hlines (a b c d e : String) : "\n".intercalate [a, b, c, d, e] =
      a ++ "\n" ++ b ++ "\n" ++ c ++ "\n" ++ d ++ "\n" ++ e := rfl
  simp only [view, viewLines, heading, margin, shownText, fill, alignRight_succ_caret, hlines,
    String.append_assoc]

theorem length_alignRight {fill : Char} {width : Nat} {text : String} (h : text.length ≤ width) :
    (alignRight fill width text).length = width := by
  rw [alignRight, String.length_append, String.length_ofList, List.length_replicate]
  omega

theorem mem_fill {c : Char} (h : c ∈ (diagnostic.fill source).toList) :
    c = ' ' ∨ c = '|' ∨ c = '-' := by
  simp only [fill, alignRight, String.toList_append, String.toList_ofList, List.mem_append,
    List.mem_replicate] at h
  rcases h with (((⟨-, rfl⟩ | h) | h) | ⟨-, rfl⟩)
  · exact .inl rfl
  · exact .inr (.inl (by simpa using h))
  · exact .inl (by simpa using h)
  · exact .inr (.inr rfl)

theorem newline_notMem_shownText (diagnostic : Diagnostic) (source : String) :
    '\n' ∉ (diagnostic.shownText source).toList := by
  rw [shownText, String.toList_ofList]
  exact newline_notMem_trimEnd (placeAmong_mem 1 (lines_ne_nil _) _).2.2 isIndent rfl

/-- Neither the source line nor the caret brings a line feed with it. -/
theorem count_view (source : String) [OneLine diagnostic.cause.headline]
    [OneLine diagnostic.position.file] : (diagnostic.view source).toList.count '\n' = 4 := by
  have htext : (diagnostic.shownText source).toList.count '\n' = 0 :=
    List.count_eq_zero.mpr (newline_notMem_shownText diagnostic source)
  have hfill : (diagnostic.fill source).toList.count '\n' = 0 := by
    apply List.count_eq_zero.mpr
    intro h
    rcases mem_fill h with h | h | h <;> cases h
  have herror : OneLine "Error: " := by decide
  have harrow : OneLine "-> " := by decide
  have hbar : OneLine "|" := by decide
  have hbetween : OneLine " | " := by decide
  have hcaret : OneLine "^" := by decide
  have hfeed : "\n".toList.count '\n' = 1 := rfl
  simp only [view_eq, heading, margin, String.toList_append, List.count_append,
    OneLine.count_eq_zero, htext, hfill, hfeed]

end Diagnostic

end ExprLang
