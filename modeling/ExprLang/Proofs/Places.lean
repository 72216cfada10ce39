import ExprLang.Text.Place
import Mathlib.Data.List.TakeWhile

/-!
# Lines and Places

A text is a sequence of lines, each with its line feed but the last.  So facts about lines are
proved by induction on that sequence, and the place of an offset between two characters is given by
the line feeds before it and by the rest of its line on either side.
-/

namespace ExprLang.Text

/-- Every text is one line, or a line with its line feed and a text after it. -/
@[elab_as_elim]
theorem byLines {motive : List Char → Prop} (last : ∀ line, '\n' ∉ line → motive line)
    (more : ∀ line cs, '\n' ∉ line → motive cs → motive (line ++ '\n' :: cs)) (cs : List Char) :
    motive cs := by
  induction hlength : cs.length using Nat.strongRecOn generalizing cs with
  | _ length ih =>
    by_cases hfeed : '\n' ∈ cs
    · obtain ⟨line, rest, rfl, hline⟩ := List.eq_append_cons_of_mem hfeed
      apply more line rest hline (ih rest.length _ rest rfl)
      rw [← hlength, List.length_append, List.length_cons]
      omega
    · exact last cs hfeed

/-- The text up to the first line feed, with it. -/
def firstLine (cs : List Char) : List Char := (lines cs).head (lines_ne_nil cs)

/-- The text after the last line feed. -/
def lastLine (cs : List Char) : List Char := (lines cs).getLast (lines_ne_nil cs)

variable {line : List Char}

/-- What stands before a text without a line feed in between belongs to its first line. -/
theorem lines_append (h : '\n' ∉ line) (cs : List Char) :
    lines (line ++ cs) = (line ++ firstLine cs) :: (lines cs).tail := by
  induction line with
  | nil => exact (List.cons_head_tail (lines_ne_nil cs)).symm
  | cons c line ih =>
    rw [List.mem_cons, not_or] at h
    simp only [List.cons_append, lines, if_neg (Ne.symm h.1), ih h.2]

theorem lines_of_notMem (h : '\n' ∉ line) : lines line = [line] := by
  simpa [firstLine, lines] using lines_append h []

theorem lines_newline (h : '\n' ∉ line) (cs : List Char) :
    lines (line ++ '\n' :: cs) = (line ++ ['\n']) :: lines cs := by
  have hfeed : lines ('\n' :: cs) = ['\n'] :: lines cs := if_pos rfl
  rw [lines_append h, firstLine]
  simp only [hfeed, List.head_cons, List.tail_cons]

theorem lastLine_of_notMem (h : '\n' ∉ line) : lastLine line = line := by
  simp only [lastLine, lines_of_notMem h, List.getLast_singleton]

theorem lastLine_newline (cs ds : List Char) : lastLine (cs ++ '\n' :: ds) = lastLine ds := by
  induction cs using byLines with
  | last line h =>
    simp only [lastLine, lines_newline h]
    exact List.getLast_cons (lines_ne_nil ds)
  | more line cs h ih =>
    rw [List.append_assoc, List.cons_append, ← ih]
    simp only [lastLine, lines_newline h]
    exact List.getLast_cons (lines_ne_nil _)

theorem newline_notMem_lastLine (cs : List Char) : '\n' ∉ lastLine cs := by
  induction cs using byLines with
  | last line h => rwa [lastLine_of_notMem h]
  | more line cs _ ih => rwa [lastLine_newline]

/-- The last line starts at the start of the text or behind a line feed. -/
theorem lastLine_append {above : List Char} (habove : ∀ c ∈ above.getLast?, c = '\n')
    (h : '\n' ∉ line) : lastLine (above ++ line) = line := by
  rcases above.eq_nil_or_concat with rfl | ⟨front, c, rfl⟩
  · exact lastLine_of_notMem h
  · obtain rfl : c = '\n' := habove c (by simp)
    rw [List.concat_eq_append, List.append_assoc, List.singleton_append, lastLine_newline,
      lastLine_of_notMem h]

theorem exists_append_lastLine (cs : List Char) :
    ∃ above, cs = above ++ lastLine cs ∧ ∀ c ∈ above.getLast?, c = '\n' := by
  induction cs using byLines with
  | last line h => exact ⟨[], by rw [lastLine_of_notMem h, List.nil_append], by simp⟩
  | more line cs h ih =>
    obtain ⟨above, hcs, habove⟩ := ih
    refine ⟨line ++ '\n' :: above, ?_, fun c hc ↦ ?_⟩
    · rw [lastLine_newline, List.append_assoc, List.cons_append, ← hcs]
    · cases habove' : above.getLast? with
      | none => simpa [List.getLast?_append, List.getLast?_cons, habove', eq_comm] using hc
      | some d =>
        obtain rfl : d = c := by
          simpa [List.getLast?_append, List.getLast?_cons, habove'] using hc
        exact habove d habove'

theorem mem_of_mem_lastLine {cs : List Char} {c : Char} (h : c ∈ lastLine cs) : c ∈ cs := by
  obtain ⟨above, hcs, -⟩ := exists_append_lastLine cs
  rw [hcs]
  exact List.mem_append_right above h

/-- Every character of the last line stands in one of the parts, on its last line. -/
theorem mem_lastLine_append {cs ds : List Char} {c : Char} (h : c ∈ lastLine (cs ++ ds)) :
    c ∈ lastLine cs ∨ c ∈ lastLine ds := by
  induction cs using byLines with
  | last line hline =>
    induction ds using byLines with
    | last ds hds =>
      rw [lastLine_of_notMem (by simp [hline, hds]), List.mem_append] at h
      rwa [lastLine_of_notMem hline, lastLine_of_notMem hds]
    | more line' ds hline' _ =>
      rw [← List.append_assoc, lastLine_newline] at h
      rw [lastLine_newline line' ds]
      exact .inr h
  | more line cs hline ih =>
    rw [List.append_assoc, List.cons_append, lastLine_newline] at h
    rw [lastLine_newline line cs]
    exact ih h

/-- The first line ends at the first line feed, if there is one. -/
theorem firstLine_eq (cs : List Char) :
    firstLine cs = cs.takeWhile (· ≠ '\n') ∨ firstLine cs = cs.takeWhile (· ≠ '\n') ++ ['\n'] := by
  induction cs using byLines with
  | last line h =>
    left
    simp only [firstLine, lines_of_notMem h, List.head_singleton]
    rw [List.takeWhile_eq_self_iff.mpr]
    exact fun c hc ↦ decide_eq_true (ne_of_mem_of_not_mem hc h)
  | more line cs h _ =>
    right
    simp only [firstLine, lines_newline h, List.head_cons]
    rw [List.takeWhile_append_of_pos fun c hc ↦ decide_eq_true (ne_of_mem_of_not_mem hc h)]
    simp

theorem firstLine_prefix (cs : List Char) : firstLine cs <+: cs := by
  refine ⟨(lines cs).tail.flatten, ?_⟩
  calc
    firstLine cs ++ (lines cs).tail.flatten = ((lines cs).head _ :: (lines cs).tail).flatten := rfl
    _ = (lines cs).flatten := by rw [List.cons_head_tail]
    _ = cs := flatten_lines cs

/-- Only the last line can be empty. -/
theorem firstLine_ne_nil {cs : List Char} (h : (lines cs).tail ≠ []) : firstLine cs ≠ [] := by
  induction cs using byLines with
  | last line hline => simp [lines_of_notMem hline] at h
  | more line cs hline _ => simp [firstLine, lines_newline hline]

theorem length_lines (cs : List Char) : (lines cs).length = cs.count '\n' + 1 := by
  induction cs using byLines with
  | last line h => rw [lines_of_notMem h, List.count_eq_zero.mpr h, List.length_singleton]
  | more line cs h ih =>
    rw [lines_newline h, List.length_cons, ih, List.count_append, List.count_cons_self,
      List.count_eq_zero.mpr h, Nat.zero_add]

theorem exists_of_mem_lines {cs : List Char} (h : line ∈ lines cs) :
    ∃ front, '\n' ∉ front ∧ (line = front ∨ line = front ++ ['\n']) := by
  induction cs using byLines with
  | last front hfront =>
    rw [lines_of_notMem hfront, List.mem_singleton] at h
    exact ⟨front, hfront, .inl h⟩
  | more front cs hfront ih =>
    rw [lines_newline hfront, List.mem_cons] at h
    rcases h with rfl | h
    · exact ⟨front, hfront, .inr rfl⟩
    · exact ih h

/-- A text that holds neither of the two characters that break a line. -/
class OneLine (text : String) : Prop where
  ne : ∀ c ∈ text.toList, c ≠ '\n' ∧ c ≠ '\r'

theorem oneLine_iff {text : String} :
    OneLine text ↔ ∀ c ∈ text.toList, c ≠ '\n' ∧ c ≠ '\r' := ⟨fun h ↦ h.ne, fun h ↦ ⟨h⟩⟩

theorem oneLine_iff_all {text : String} :
    OneLine text ↔ text.toList.all (fun c ↦ c != '\n' && c != '\r') = true := by
  simp only [oneLine_iff, List.all_eq_true, Bool.and_eq_true, bne_iff_ne]

instance (text : String) : Decidable (OneLine text) := decidable_of_iff _ oneLine_iff_all.symm

@[simp]
theorem oneLine_append_iff {text text' : String} :
    OneLine (text ++ text') ↔ OneLine text ∧ OneLine text' := by
  simp only [oneLine_iff, String.toList_append, List.forall_mem_append]

instance OneLine.append (text text' : String) [h : OneLine text] [h' : OneLine text'] :
    OneLine (text ++ text') := oneLine_append_iff.mpr ⟨h, h'⟩

theorem byteSize_pos {cs : List Char} (h : cs ≠ []) : 0 < byteSize cs :=
  Nat.lt_of_lt_of_le (List.length_pos_iff.mpr h) (length_le_byteSize cs)

theorem placeAmong_append (number : Nat) (left right : List Char) :
    placeAmong number (lines (left ++ right)) (byteSize left) =
      ⟨number + left.count '\n', lastLine left ++ firstLine right, byteSize (lastLine left)⟩ := by
  induction left using byLines generalizing number with
  | last line h =>
    rw [lines_append h, lastLine_of_notMem h, List.count_eq_zero.mpr h, Nat.add_zero]
    cases htail : (lines right).tail with
    | nil => simp [placeAmong]
    | cons next rest =>
      have hfirst : firstLine right ≠ [] := firstLine_ne_nil (by simp [htail])
      have hpos := byteSize_pos hfirst
      rw [placeAmong, if_pos (by rw [byteSize_append]; omega)]
  | more line cs h ih =>
    obtain ⟨next, rest, hlines⟩ := List.exists_cons_of_ne_nil (lines_ne_nil (cs ++ right))
    have hsize : byteSize (line ++ '\n' :: cs) = byteSize (line ++ ['\n']) + byteSize cs := by
      simp [Nat.add_assoc]
    have hcount : (line ++ '\n' :: cs).count '\n' = cs.count '\n' + 1 := by
      simp [List.count_eq_zero.mpr h]
    rw [List.append_assoc, List.cons_append, lines_newline h, hlines, hsize, placeAmong,
      if_neg (by omega), Nat.add_sub_cancel_left, ← hlines, ih, lastLine_newline, hcount]
    congr 1
    omega

/-- Every offset has its place on one of the lines. -/
theorem placeAmong_mem (number : Nat) {texts : List (List Char)} (h : texts ≠ []) (offset : Nat) :
    number ≤ (placeAmong number texts offset).line ∧
      (placeAmong number texts offset).line < number + texts.length ∧
      (placeAmong number texts offset).text ∈ texts := by
  induction texts generalizing number offset with
  | nil => exact absurd rfl h
  | cons text texts ih =>
    cases texts with
    | nil => simp [placeAmong]
    | cons next texts =>
      rw [placeAmong]
      split
      · simp
      · obtain ⟨hle, hlt, hmem⟩ := ih (number + 1) (List.cons_ne_nil next texts)
          (offset - byteSize text)
        rw [List.length_cons]
        exact ⟨by omega, by omega, List.mem_cons_of_mem text hmem⟩

theorem place_line (source : List Char) (offset : Nat) :
    1 ≤ (place source offset).line ∧ (place source offset).line ≤ source.count '\n' + 1 := by
  obtain ⟨hle, hlt, -⟩ := placeAmong_mem 1 (lines_ne_nil source) offset
  rw [length_lines] at hlt
  exact ⟨hle, by rw [place]; omega⟩

/-- The place of an offset between two characters. -/
theorem place_append (left right : List Char) : place (left ++ right) (byteSize left) =
    ⟨left.count '\n' + 1, lastLine left ++ firstLine right, byteSize (lastLine left)⟩ := by
  rw [place, placeAmong_append, Nat.add_comm]

end ExprLang.Text
