import ExprLang.Proofs.Places
import Mathlib.Data.List.DropRight
import Mathlib.Data.Set.Function
import Mathlib.Order.Interval.Set.Defs

/-!
# The Place of Every Offset

A place belongs to a byte offset, which need not lie between two characters.  So the place of an
offset is described by the bytes on either side of it: the line feeds before it, what stands behind
the last of them, and what follows up to the next one.
-/

namespace ExprLang.Text

/-- The bytes of a text in UTF-8. -/
def bytes (cs : List Char) : List UInt8 := cs.flatMap String.utf8EncodeChar

/-- The byte of a line feed. -/
def feed : UInt8 := 10

theorem bytes_toList (text : String) : bytes text.toList = text.toUTF8.data.toList := by
  calc
    bytes text.toList = (String.ofList text.toList).toUTF8.data.toList := by
      rw [String.toUTF8_eq_toByteArray, String.toByteArray_ofList, List.utf8Encode,
        List.toList_data_toByteArray, bytes]
    _ = text.toUTF8.data.toList := by rw [String.ofList_toList]

theorem bytes_append (cs ds : List Char) : bytes (cs ++ ds) = bytes cs ++ bytes ds :=
  List.flatMap_append

theorem bytes_newline (line cs : List Char) :
    bytes (line ++ '\n' :: cs) = bytes line ++ feed :: bytes cs :=
  bytes_append line ('\n' :: cs)

theorem length_bytes (cs : List Char) : (bytes cs).length = byteSize cs := by
  induction cs with
  | nil => rfl
  | cons c cs ih =>
    rw [bytes, List.flatMap_cons, List.length_append, String.length_utf8EncodeChar, byteSize_cons,
      ← ih, bytes]

/-- A character outside of ASCII has bytes outside of ASCII only. -/
theorem feed_notMem_utf8EncodeChar {c : Char} (h : 127 < c.val.toNat) :
    feed ∉ String.utf8EncodeChar c := by
  have hne {n : Nat} (hlt : 127 < n) (hlt' : n < 256) : feed ≠ UInt8.ofNat n := by
    intro hfeed
    have hten : 10 = n % 256 := by simpa [feed] using congrArg UInt8.toNat hfeed
    omega
  simp only [String.utf8EncodeChar, if_neg (Nat.not_le.mpr h)]
  split
  · simp only [List.mem_cons, List.not_mem_nil, or_false, not_or]
    exact ⟨hne (by omega) (by omega), hne (by omega) (by omega)⟩
  · split
    · simp only [List.mem_cons, List.not_mem_nil, or_false, not_or]
      exact ⟨hne (by omega) (by omega), hne (by omega) (by omega), hne (by omega) (by omega)⟩
    · simp only [List.mem_cons, List.not_mem_nil, or_false, not_or]
      exact ⟨hne (by omega) (by omega), hne (by omega) (by omega), hne (by omega) (by omega),
        hne (by omega) (by omega)⟩

variable {line : List Char}

theorem feed_notMem_bytes (h : '\n' ∉ line) : feed ∉ bytes line := by
  rw [bytes, List.mem_flatMap]
  rintro ⟨c, hc, hfeed⟩
  by_cases hascii : c.val.toNat ≤ 127
  · simp only [String.utf8EncodeChar, if_pos hascii, List.mem_singleton] at hfeed
    have hten : 10 = c.val.toNat % 256 := by simpa [feed] using congrArg UInt8.toNat hfeed
    obtain rfl : c = '\n' := Char.toNat_inj.mp (by change c.val.toNat = 10; omega)
    exact h hc
  · exact feed_notMem_utf8EncodeChar (Nat.lt_of_not_le hascii) hfeed

/-- What stands behind the last line feed. -/
def behindFeed (bs : List UInt8) : List UInt8 := bs.rtakeWhile (· ≠ feed)

/-- What stands up to the first line feed, with it. -/
def throughFeed (bs : List UInt8) : List UInt8 :=
  bs.takeWhile (· ≠ feed) ++ (bs.dropWhile (· ≠ feed)).take 1

variable {bs : List UInt8}

theorem forall_ne_feed (h : feed ∉ bs) : ∀ b ∈ bs, decide (b ≠ feed) = true :=
  fun _ hb ↦ decide_eq_true (ne_of_mem_of_not_mem hb h)

theorem behindFeed_of_notMem (h : feed ∉ bs) : behindFeed bs = bs :=
  List.rtakeWhile_eq_self_iff.mpr (forall_ne_feed h)

theorem behindFeed_append (bs cs : List UInt8) : behindFeed (bs ++ feed :: cs) = behindFeed cs := by
  induction cs using List.reverseRecOn with
  | nil => exact List.rtakeWhile_concat_neg _ _ _ (by simp)
  | append_singleton cs c ih =>
    rw [← List.cons_append, ← List.append_assoc]
    by_cases hc : c = feed
    · rw [behindFeed, behindFeed, List.rtakeWhile_concat_neg _ _ _ (by simp [hc]),
        List.rtakeWhile_concat_neg _ _ _ (by simp [hc])]
    · rw [behindFeed, behindFeed, List.rtakeWhile_concat_pos _ _ _ (by simp [hc]),
        List.rtakeWhile_concat_pos _ _ _ (by simp [hc]), ← behindFeed, ih, behindFeed]

theorem throughFeed_of_notMem (h : feed ∉ bs) : throughFeed bs = bs := by
  rw [throughFeed, List.takeWhile_eq_self_iff.mpr (forall_ne_feed h),
    List.dropWhile_eq_nil_iff.mpr (forall_ne_feed h), List.take_nil, List.append_nil]

theorem throughFeed_append (h : feed ∉ bs) (cs : List UInt8) :
    throughFeed (bs ++ feed :: cs) = bs ++ [feed] := by
  rw [throughFeed, List.takeWhile_append_of_pos (forall_ne_feed h),
    List.dropWhile_append_of_pos (forall_ne_feed h)]
  simp

theorem byteSize_newline (line : List Char) : byteSize (line ++ ['\n']) = byteSize line + 1 :=
  byteSize_append line ['\n']

theorem placeAmong_succ (number : Nat) (texts : List (List Char)) (offset : Nat) :
    placeAmong (number + 1) texts offset =
      { placeAmong number texts offset with
        line := (placeAmong number texts offset).line + 1 } := by
  induction texts generalizing number offset with
  | nil => rfl
  | cons text texts ih =>
    cases texts with
    | nil => rfl
    | cons next texts =>
      rw [placeAmong, placeAmong]
      split
      · rfl
      · exact ih (number + 1) (offset - byteSize text)

theorem place_of_notMem (h : '\n' ∉ line) (offset : Nat) :
    place line offset = ⟨1, line, min offset (byteSize line)⟩ := by
  rw [place, lines_of_notMem h, placeAmong]

theorem place_newline (h : '\n' ∉ line) (cs : List Char) (offset : Nat) :
    place (line ++ '\n' :: cs) offset =
      if offset ≤ byteSize line then ⟨1, line ++ ['\n'], offset⟩
      else
        { place cs (offset - (byteSize line + 1)) with
          line := (place cs (offset - (byteSize line + 1))).line + 1 } := by
  obtain ⟨next, rest, hlines⟩ := List.exists_cons_of_ne_nil (lines_ne_nil cs)
  rw [place, lines_newline h, hlines, placeAmong, byteSize_newline, ← hlines, placeAmong_succ,
    ← place]
  simp only [Nat.lt_succ_iff]

/-- The place of a position, told by the bytes before it and behind it.  Its text is the line of its
number, and the lines above take up what its column leaves of the position. -/
structure Place.IsAt (source : List Char) (position : Nat) (place : Place) : Prop where
  line_eq : place.line = ((bytes source).take position).count feed + 1
  column_eq : place.column = (behindFeed ((bytes source).take position)).length
  text_eq : bytes place.text =
    behindFeed ((bytes source).take position) ++ throughFeed ((bytes source).drop position)
  listed : (lines source)[place.line - 1]? = some place.text
  above : (bytes ((lines source).take (place.line - 1)).flatten).length + place.column = position

theorem isAt_of_le (h : '\n' ∉ line) (cs : List Char) {offset : Nat}
    (hle : offset ≤ byteSize line) :
    (⟨1, line ++ ['\n'], offset⟩ : Place).IsAt (line ++ '\n' :: cs) offset := by
  have hfeed := feed_notMem_bytes h
  rw [← length_bytes] at hle
  have htake : (bytes (line ++ '\n' :: cs)).take offset = (bytes line).take offset := by
    rw [bytes_newline, List.take_append_of_le_length hle]
  have hdrop : (bytes (line ++ '\n' :: cs)).drop offset =
      (bytes line).drop offset ++ feed :: bytes cs := by
    rw [bytes_newline, List.drop_append_of_le_length hle]
  have hbefore : feed ∉ (bytes line).take offset := mt List.mem_of_mem_take hfeed
  have hbehind : feed ∉ (bytes line).drop offset := mt List.mem_of_mem_drop hfeed
  constructor
  · rw [htake, List.count_eq_zero.mpr hbefore]
  · rw [htake, behindFeed_of_notMem hbefore, List.length_take_of_le hle]
  · rw [htake, hdrop, behindFeed_of_notMem hbefore, throughFeed_append hbehind,
      ← List.append_assoc, List.take_append_drop, bytes_append]
    rfl
  · rw [lines_newline h]
    rfl
  · exact Nat.zero_add offset

/-- One more line in front moves the position behind it. -/
theorem Place.IsAt.newline (h : '\n' ∉ line) {cs : List Char} {position : Nat} {place : Place}
    (hplace : place.IsAt cs position) :
    { place with line := place.line + 1 }.IsAt (line ++ '\n' :: cs)
      (byteSize line + 1 + position) := by
  obtain ⟨hline, hcolumn, htext, hlisted, habove⟩ := hplace
  have htake : (bytes (line ++ '\n' :: cs)).take (byteSize line + 1 + position) =
      bytes line ++ feed :: (bytes cs).take position := by
    rw [bytes_newline, ← length_bytes, Nat.add_assoc, List.take_length_add_append, Nat.add_comm 1,
      List.take_succ_cons]
  have hdrop : (bytes (line ++ '\n' :: cs)).drop (byteSize line + 1 + position) =
      (bytes cs).drop position := by
    rw [bytes_newline, ← length_bytes, Nat.add_assoc, List.drop_length_add_append, Nat.add_comm 1,
      List.drop_succ_cons]
  obtain ⟨n, hn⟩ : ∃ n, place.line = n + 1 := ⟨_, hline⟩
  simp only [hn, Nat.add_sub_cancel] at hlisted habove
  constructor
  · rw [htake, List.count_append, List.count_cons_self,
      List.count_eq_zero.mpr (feed_notMem_bytes h), Nat.zero_add]
    exact congrArg (· + 1) hline
  · rw [htake, behindFeed_append]
    exact hcolumn
  · rw [htake, hdrop, behindFeed_append]
    exact htext
  · rw [lines_newline h]
    simpa [hn] using hlisted
  · rw [length_bytes] at habove ⊢
    simp only [lines_newline h, hn, Nat.add_sub_cancel, List.take_succ_cons, List.flatten_cons,
      byteSize_append (line ++ ['\n']), byteSize_newline]
    omega

theorem place_isAt (source : List Char) (offset : Nat) :
    (place source offset).IsAt source (min offset (bytes source).length) := by
  induction source using byLines generalizing offset with
  | last line h =>
    have hfeed := feed_notMem_bytes h
    have hbefore : feed ∉ (bytes line).take (min offset (bytes line).length) :=
      mt List.mem_of_mem_take hfeed
    have hbehind : feed ∉ (bytes line).drop (min offset (bytes line).length) :=
      mt List.mem_of_mem_drop hfeed
    rw [place_of_notMem h, ← length_bytes]
    constructor
    · rw [List.count_eq_zero.mpr hbefore]
    · rw [behindFeed_of_notMem hbefore, List.length_take_of_le (Nat.min_le_right _ _)]
    · rw [behindFeed_of_notMem hbefore, throughFeed_of_notMem hbehind, List.take_append_drop]
    · rw [lines_of_notMem h]
      rfl
    · exact Nat.zero_add _
  | more line cs h ih =>
    have hlength : (bytes (line ++ '\n' :: cs)).length = byteSize line + 1 + (bytes cs).length := by
      rw [bytes_newline, List.length_append, List.length_cons, length_bytes]
      omega
    rw [place_newline h, hlength]
    split
    · next hle =>
      rw [Nat.min_eq_left (by omega)]
      exact isAt_of_le h cs hle
    · next hlt =>
      have hposition : min offset (byteSize line + 1 + (bytes cs).length) =
          byteSize line + 1 + min (offset - (byteSize line + 1)) (bytes cs).length := by omega
      rw [hposition]
      exact (ih _).newline h

theorem Place.IsAt.unique {source : List Char} {position : Nat} {place place' : Place}
    (h : place.IsAt source position) (h' : place'.IsAt source position) : place = place' := by
  have hline : place.line = place'.line := h.line_eq.trans h'.line_eq.symm
  have hcolumn : place.column = place'.column := h.column_eq.trans h'.column_eq.symm
  have htext : some place.text = some place'.text := by rw [← h.listed, hline, h'.listed]
  cases place
  cases place'
  simp_all

/-- Behind its last line feed a source has one more line, which may be empty. -/
theorem place_length_add (source : List Char) (extra : Nat) :
    place source ((bytes source).length + extra) =
      if (bytes source).getLast? = some feed then ⟨(bytes source).count feed + 1, [], 0⟩
      else
        ⟨(bytes source).count feed + 1, lastLine source, (bytes (lastLine source)).length⟩ := by
  have hend := place_append source []
  rw [List.append_nil, ← length_bytes] at hend
  have hlast := place_isAt source (bytes source).length
  have hclamped := place_isAt source ((bytes source).length + extra)
  rw [Nat.min_self] at hlast
  rw [Nat.min_eq_right (Nat.le_add_right _ _)] at hclamped
  have hline := hlast.line_eq
  have hcolumn := hlast.column_eq
  rw [List.take_length, hend] at hline hcolumn
  rw [hclamped.unique hlast, hend, ← hline, length_bytes]
  split
  · next hfeed =>
    obtain ⟨front, hfront⟩ := List.getLast?_eq_some_iff.mp hfeed
    rw [hfront, behindFeed_append] at hcolumn
    have hempty : byteSize (lastLine source) = 0 := hcolumn
    have hnil : lastLine source = [] := by
      by_contra hne
      exact Nat.ne_of_gt (byteSize_pos hne) hempty
    rw [hnil]
    rfl
  · rw [firstLine]
    simp only [lines, List.head_cons, List.append_nil]

/-- Every byte offset has exactly one place, on the line that holds the offset, and the places of
different offsets differ.  Offsets past the end have the place of the end. -/
theorem place_of_every_offset (source : String) :
    let text := source.toList
    bytes text = source.toUTF8.data.toList ∧
    (∀ offset, (place text offset).IsAt text (min offset (bytes text).length)) ∧
    (∀ extra, place text ((bytes text).length + extra) =
      if (bytes text).getLast? = some feed then ⟨(bytes text).count feed + 1, [], 0⟩
      else ⟨(bytes text).count feed + 1, lastLine text, (bytes (lastLine text)).length⟩) ∧
    Set.InjOn (fun offset ↦ ((place text offset).line, (place text offset).column))
      (Set.Iic (bytes text).length) := by
  intro text
  refine ⟨bytes_toList source, place_isAt text, place_length_add text, ?_⟩
  intro offset hoffset offset' hoffset' hsame
  obtain ⟨hline, hcolumn⟩ := Prod.mk.inj hsame
  have habove := (place_isAt text offset).above
  have habove' := (place_isAt text offset').above
  rw [Nat.min_eq_left hoffset] at habove
  rw [Nat.min_eq_left hoffset'] at habove'
  rw [← habove, ← habove', hline, hcolumn]

end ExprLang.Text
