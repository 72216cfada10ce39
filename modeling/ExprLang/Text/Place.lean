import ExprLang.Text

/-!
# Places in a Text

A byte offset is found again by the number of its line, the text of that line and the column, which
counts the bytes before the offset on the line.  A line ends just after its line feed; a text that
ends in a line feed has one more line, which is empty.
-/

namespace ExprLang.Text

/-- The lines of a text, each with its line feed.  Only the last line has none. -/
def lines : List Char → List (List Char)
  | [] => [[]]
  | c :: cs =>
    if c = '\n' then [c] :: lines cs
    else
      match lines cs with
      | [] => [[c]]
      | line :: rest => (c :: line) :: rest

theorem lines_ne_nil (cs : List Char) : lines cs ≠ [] := by
  cases cs with
  | nil => simp [lines]
  | cons c cs =>
    simp only [lines]
    split
    · simp
    · split <;> simp

theorem flatten_lines (cs : List Char) : (lines cs).flatten = cs := by
  induction cs with
  | nil => rfl
  | cons c cs ih =>
    simp only [lines]
    split
    · simp [ih]
    · split
      · next h => exact absurd h (lines_ne_nil cs)
      · next h => simpa [h] using ih

/-- A line without its end: a line feed and a carriage return before it. -/
def withoutEnd (line : List Char) : List Char :=
  let text := if line.getLast? = some '\n' then line.dropLast else line
  if text.getLast? = some '\r' then text.dropLast else text

theorem withoutEnd_cons {c : Char} (hfeed : c ≠ '\n') (hreturn : c ≠ '\r') (line : List Char) :
    withoutEnd (c :: line) = c :: withoutEnd line := by
  cases line with
  | nil => simp [withoutEnd, hfeed, hreturn]
  | cons d ds =>
    simp only [withoutEnd, List.getLast?_cons_cons, List.dropLast_cons_cons]
    split
    · cases hlast : (d :: ds).dropLast with
      | nil => simp [hreturn]
      | cons e es =>
        simp only [List.getLast?_cons_cons, List.dropLast_cons_cons]
        split <;> rfl
    · split <;> simp_all

/-- A text without carriage returns is its lines with line feeds between them. -/
theorem intercalate_lines {cs : List Char} (h : '\r' ∉ cs) :
    ['\n'].intercalate ((lines cs).map withoutEnd) = cs := by
  induction cs with
  | nil => rfl
  | cons c cs ih =>
    obtain ⟨hreturn, hrest⟩ := not_or.mp (mt List.mem_cons.mpr h)
    have hlines := ih hrest
    cases hcs : lines cs with
    | nil => exact absurd hcs (lines_ne_nil cs)
    | cons line rest =>
      rw [hcs, List.map_cons] at hlines
      by_cases hfeed : c = '\n'
      · rw [lines, if_pos hfeed, hcs, List.map_cons, List.map_cons, List.intercalate_cons_cons,
          hlines, hfeed]
        rfl
      · rw [lines, if_neg hfeed, hcs]
        dsimp only
        rw [List.map_cons, withoutEnd_cons hfeed (Ne.symm hreturn),
          List.intercalate_cons_cons_left, hlines]

/-- A line of a text, its number counted from one, and a column on it counted from zero. -/
structure Place where
  line : Nat
  text : List Char
  column : Nat
deriving DecidableEq, Repr

/-- The place of an offset among the lines from the given number on.  An offset past the end belongs
to the end of the last line. -/
def placeAmong (number : Nat) : List (List Char) → Nat → Place
  | [], _ => ⟨number, [], 0⟩
  | [line], offset => ⟨number, line, min offset (byteSize line)⟩
  | line :: next :: rest, offset =>
    if offset < byteSize line then ⟨number, line, offset⟩
    else placeAmong (number + 1) (next :: rest) (offset - byteSize line)

/-- The place of a byte offset in a text. -/
def place (source : List Char) (offset : Nat) : Place :=
  placeAmong 1 (lines source) offset

end ExprLang.Text
