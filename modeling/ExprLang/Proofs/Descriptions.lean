import ExprLang.Tree.Description
import Mathlib.Data.List.Basic

/-!
# Reading Descriptions Back

The first characters of a text tell how its description is built: a quote opens a text, a bracket
opens a list, and behind a bare word stands what opens a record or a choice, or something that ends
the word.  What is between brackets is told apart by commas, and a quoted text hides all of these.
So a text determines its description and where it ends.
-/

namespace ExprLang

namespace Text

/-- The value of hexadecimal digits. -/
def hexValue (digits : List Char) : Nat :=
  digits.foldl (fun value d ↦ 16 * value + (d.toNat - if d.isDigit then 48 else 87)) 0

/-- The character that a letter stands for behind a backslash. -/
def marked (c : Char) : Char :=
  if c = 't' then '\t' else if c = 'r' then '\r' else if c = 'n' then '\n'
  else if c = '0' then '\x00' else c

/-- Reads what stands behind a backslash. -/
def readMark : List Char → Option (Char × List Char)
  | [] => none
  | c :: cs =>
    if c = 'u' then
      some (Char.ofNat (hexValue ((cs.drop 1).takeWhile (· ≠ '\x7d'))),
        ((cs.drop 1).dropWhile (· ≠ '\x7d')).drop 1)
    else some (marked c, cs)

/-- Reads one character of a quoted text, unless the text ends. -/
def readEscaped : List Char → Option (Char × List Char)
  | [] => none
  | c :: cs => if c = '\x22' then none else if c = '\\' then readMark cs else some (c, cs)

theorem hexValue_toDigits {n : Nat} (h : n < 160) :
    hexValue (Nat.toDigits 16 n) = n ∧ ∀ d ∈ Nat.toDigits 16 n, d ≠ '\x7d' := by
  have hall : ∀ n < 160, hexValue (Nat.toDigits 16 n) = n ∧
      (Nat.toDigits 16 n).all (fun d ↦ d != '\x7d') = true := by
    decide +kernel
  simpa [List.all_eq_true] using hall n h

theorem toNat_lt_of_isControl {c : Char} (h : isControl c = true) : c.toNat < 160 := by
  simp only [isControl, Bool.or_eq_true, Bool.and_eq_true, decide_eq_true_eq] at h
  omega

theorem readMark_number {digits : List Char} (h : ∀ d ∈ digits, d ≠ '\x7d') (rest : List Char) :
    readMark ('u' :: '\x7b' :: (digits ++ '\x7d' :: rest)) =
      some (Char.ofNat (hexValue digits), rest) := by
  have hdigits : ∀ d ∈ digits, decide (d ≠ '\x7d') = true := fun d hd ↦ decide_eq_true (h d hd)
  rw [readMark, if_pos rfl, List.drop_one, List.tail_cons, List.takeWhile_append_of_pos hdigits,
    List.dropWhile_append_of_pos hdigits]
  simp

/-- A character can be read back from what stands for it. -/
theorem readEscaped_escaped (c : Char) (rest : List Char) :
    readEscaped (escaped c ++ rest) = some (c, rest) := by
  unfold escaped
  split
  · next h => rcases h with rfl | rfl <;> rfl
  split
  · next h => rw [h]; rfl
  split
  · next h => rw [h]; rfl
  split
  · next h => rw [h]; rfl
  split
  · next h =>
    obtain rfl : c = '\x00' := Char.toNat_inj.mp h
    rfl
  split
  · next h =>
    obtain ⟨hvalue, hdigits⟩ := hexValue_toDigits (toNat_lt_of_isControl h)
    have hread := readMark_number hdigits rest
    rw [hvalue, Char.ofNat_toNat] at hread
    simpa [readEscaped] using hread
  · next hmarks _ _ _ _ _ =>
    obtain ⟨hquote, hbackslash⟩ := not_or.mp hmarks
    simp [readEscaped, hquote, hbackslash]

/-- A quoted text ends at the first quote that does not stand for a character of it. -/
theorem flatMap_escaped_append_inj {cs cs' rest rest' : List Char}
    (h : cs.flatMap escaped ++ '\x22' :: rest = cs'.flatMap escaped ++ '\x22' :: rest') :
    cs = cs' ∧ rest = rest' := by
  induction cs generalizing cs' with
  | nil =>
    cases cs' with
    | nil => exact ⟨rfl, (List.cons.inj h).2⟩
    | cons c' cs' =>
      have hread := congrArg readEscaped h
      rw [List.flatMap_cons, List.append_assoc, readEscaped_escaped] at hread
      cases hread
  | cons c cs ih =>
    have hread := congrArg readEscaped h
    rw [List.flatMap_cons, List.append_assoc, readEscaped_escaped] at hread
    cases cs' with
    | nil => cases hread
    | cons c' cs' =>
      rw [List.flatMap_cons, List.append_assoc, readEscaped_escaped] at hread
      obtain ⟨rfl, hrest⟩ := Prod.mk.inj (Option.some.inj hread)
      obtain ⟨rfl, rfl⟩ := ih hrest
      exact ⟨rfl, rfl⟩

theorem toList_quoted (text : String) :
    (quoted text).toList = '\x22' :: (text.toList.flatMap escaped ++ ['\x22']) := by
  rw [quoted, String.toList_ofList, List.cons_append]

theorem quoted_injective : Function.Injective quoted := by
  intro text text' h
  have hlists := congrArg String.toList h
  rw [toList_quoted, toList_quoted] at hlists
  exact String.toList_inj.mp (flatMap_escaped_append_inj (List.cons.inj hlists).2).1

end Text

namespace Description

def isBareChar (c : Char) : Bool := c.isAlphanum || c = '.' || c = '-'

/-- The characters can stand in a bare word. -/
def AllBare (cs : List Char) : Prop := ∀ c ∈ cs, isBareChar c = true

instance (cs : List Char) : Decidable (AllBare cs) :=
  decidable_of_iff (cs.all isBareChar = true) List.all_eq_true

/-- The text can stand in a description without quotes: a name or a number. -/
def IsBare (text : String) : Prop := text ≠ "" ∧ AllBare text.toList

instance (text : String) : Decidable (IsBare text) :=
  inferInstanceAs (Decidable (text ≠ "" ∧ AllBare text.toList))

/-- Descriptions that can be read back. -/
inductive Readable : Description → Prop
  | word {text : String} : IsBare text → Readable (atom text)
  | string (text : String) : Readable (string text)
  | named {name : String} {part : Description} : IsBare name → Readable part →
      Readable (named name part)
  | list {parts : List Description} : (∀ part ∈ parts, Readable part) → Readable (list parts)
  | record {name : String} {parts : List Description} : IsBare name →
      (∀ part ∈ parts, Readable part) → Readable (group (name ++ " \x7b ") parts " \x7d")
  | choice {name : String} {content : Description} : IsBare name → Readable content →
      Readable (choice name content)

/-! ## Openings -/

/-- How a description starts. -/
inductive Opening where
  | string
  | list
  | word (text : String)
  | named (name : String)
  | record (name : String)
  | choice (name : String)

/-- What a bare word opens, told from what stands behind it. -/
def openingAfter (word : String) : List Char → Opening × List Char
  | ':' :: ' ' :: rest => (.named word, rest)
  | ' ' :: '\x7b' :: ' ' :: rest => (.record word, rest)
  | '(' :: rest => (.choice word, rest)
  | rest => (.word word, rest)

/-- How a text starts, and what follows. -/
def opening : List Char → Opening × List Char
  | '\x22' :: rest => (.string, rest)
  | '[' :: rest => (.list, rest)
  | cs => openingAfter (String.ofList (cs.takeWhile isBareChar)) (cs.dropWhile isBareChar)

/-- What closes a list, a choice or a record. -/
inductive Closes : List Char → Prop
  | list (rest : List Char) : Closes (']' :: rest)
  | choice (rest : List Char) : Closes (')' :: rest)
  | record (rest : List Char) : Closes (' ' :: '\x7d' :: rest)

/-- What may stand behind a description. -/
inductive Follows : List Char → Prop
  | nothing : Follows []
  | comma (rest : List Char) : Follows (',' :: rest)
  | closes {rest : List Char} : Closes rest → Follows rest

theorem opening_bare {word : String} (hword : IsBare word) {rest : List Char}
    (hrest : ∀ c ∈ rest.head?, isBareChar c = false) :
    opening (word.toList ++ rest) = openingAfter word rest := by
  obtain ⟨hne, hbare⟩ := hword
  have htake : (word.toList ++ rest).takeWhile isBareChar = word.toList := by
    rw [List.takeWhile_append_of_pos hbare]
    cases rest <;> simp_all
  have hdrop : (word.toList ++ rest).dropWhile isBareChar = rest := by
    rw [List.dropWhile_append_of_pos hbare]
    cases rest <;> simp_all
  have hopening : opening (word.toList ++ rest) = openingAfter
      (String.ofList ((word.toList ++ rest).takeWhile isBareChar))
      ((word.toList ++ rest).dropWhile isBareChar) := by
    obtain ⟨c, cs, hcs⟩ := List.exists_cons_of_ne_nil (mt String.toList_eq_nil_iff.mp hne)
    have hc := hbare c (by rw [hcs]; exact List.mem_cons_self)
    rw [hcs, List.cons_append, opening]
    · rintro rest' ⟨⟩
      cases hc
    · rintro rest' ⟨⟩
      cases hc
  rw [hopening, htake, hdrop, String.ofList_toList]

theorem Follows.isBareChar_head {rest : List Char} (h : Follows rest) :
    ∀ c ∈ rest.head?, isBareChar c = false := by
  obtain _ | _ | ⟨⟨⟩⟩ := h <;> simp [isBareChar]

theorem openingAfter_of_follows {rest : List Char} (h : Follows rest) (word : String) :
    openingAfter word rest = (.word word, rest) := by
  obtain _ | _ | ⟨⟨⟩⟩ := h <;> rfl

/-- The text of parts with commas between them. -/
def partsText (parts : List Description) : List Char := (", ".intercalate (textAll parts)).toList

/-- The text of parts with a comma before each of them. -/
def moreText (parts : List Description) : List Char :=
  parts.flatMap fun part ↦ ',' :: ' ' :: part.text.toList

theorem partsText_cons (part : Description) (parts : List Description) :
    partsText (part :: parts) = part.text.toList ++ moreText parts := by
  induction parts generalizing part with
  | nil => simp [partsText, moreText, textAll]
  | cons next parts ih =>
    have hnext := ih next
    rw [partsText, String.toList_intercalate] at hnext ⊢
    rw [textAll, List.map_cons, textAll, List.map_cons, List.intercalate_cons_cons,
      ← List.map_cons, ← textAll, hnext]
    simp [moreText]

section

variable {name text : String} {rest : List Char}

theorem opening_word (hbare : IsBare text) (hrest : Follows rest) :
    opening ((atom text).text.toList ++ rest) = (.word text, rest) := by
  rw [Description.text, opening_bare hbare hrest.isBareChar_head, openingAfter_of_follows hrest]

theorem opening_string (text : String) (rest : List Char) :
    opening ((string text).text.toList ++ rest) =
      (.string, text.toList.flatMap Text.escaped ++ '\x22' :: rest) := by
  rw [string, Description.text, Text.toList_quoted, List.cons_append, List.append_assoc]
  rfl

theorem opening_named (hname : IsBare name) (part : Description) (rest : List Char) :
    opening ((named name part).text.toList ++ rest) =
      (.named name, part.text.toList ++ rest) := by
  have htext : (named name part).text.toList ++ rest =
      name.toList ++ ':' :: ' ' :: (part.text.toList ++ rest) := by
    simp [Description.text]
  rw [htext, opening_bare hname (by simp; decide)]
  rfl

theorem opening_list (parts : List Description) (rest : List Char) :
    opening ((list parts).text.toList ++ rest) = (.list, partsText parts ++ ']' :: rest) := by
  have htext : (list parts).text.toList ++ rest = '[' :: (partsText parts ++ ']' :: rest) := by
    simp [list, Description.text, partsText]
  rw [htext]
  rfl

theorem opening_record (hname : IsBare name) (parts : List Description) (rest : List Char) :
    opening ((group (name ++ " \x7b ") parts " \x7d").text.toList ++ rest) =
      (.record name, partsText parts ++ ' ' :: '\x7d' :: rest) := by
  have htext : (group (name ++ " \x7b ") parts " \x7d").text.toList ++ rest =
      name.toList ++ ' ' :: '\x7b' :: ' ' :: (partsText parts ++ ' ' :: '\x7d' :: rest) := by
    simp [Description.text, partsText]
  rw [htext, opening_bare hname (by simp; decide)]
  rfl

theorem opening_choice (hname : IsBare name) (content : Description) (rest : List Char) :
    opening ((choice name content).text.toList ++ rest) =
      (.choice name, content.text.toList ++ ')' :: rest) := by
  have htext : (choice name content).text.toList ++ rest =
      name.toList ++ '(' :: (content.text.toList ++ ')' :: rest) := by
    simp [choice, Description.text, textAll]
  rw [htext, opening_bare hname (by simp; decide)]
  rfl

end

/-- What the text of a description opens with the given rest behind it, and what follows. -/
inductive Opens (rest : List Char) : Description → Opening → List Char → Prop
  | word (text : String) : Opens rest (atom text) (.word text) rest
  | string (text : String) :
      Opens rest (string text) .string (text.toList.flatMap Text.escaped ++ '\x22' :: rest)
  | named (name : String) {part : Description} : Readable part →
      Opens rest (named name part) (.named name) (part.text.toList ++ rest)
  | list {parts : List Description} : (∀ part ∈ parts, Readable part) →
      Opens rest (list parts) .list (partsText parts ++ ']' :: rest)
  | record (name : String) {parts : List Description} : (∀ part ∈ parts, Readable part) →
      Opens rest (group (name ++ " \x7b ") parts " \x7d") (.record name)
        (partsText parts ++ ' ' :: '\x7d' :: rest)
  | choice (name : String) {content : Description} : Readable content →
      Opens rest (choice name content) (.choice name) (content.text.toList ++ ')' :: rest)

theorem Readable.opens {d : Description} (h : Readable d) {rest : List Char}
    (hrest : Follows rest) : Opens rest d (opening (d.text.toList ++ rest)).1
      (opening (d.text.toList ++ rest)).2 := by
  cases h with
  | @word text hbare =>
    rw [opening_word hbare hrest]
    exact .word text
  | string text =>
    rw [opening_string]
    exact .string text
  | @named name part hname hpart =>
    rw [opening_named hname]
    exact .named name hpart
  | @list parts hparts =>
    rw [opening_list]
    exact .list hparts
  | @record name parts hname hparts =>
    rw [opening_record hname]
    exact .record name hparts
  | @choice name content hname hcontent =>
    rw [opening_choice hname]
    exact .choice name hcontent

/-- The text of the description determines it and where it ends. -/
def Distinct (d : Description) : Prop :=
  ∀ {d' : Description} {rest rest' : List Char}, Readable d' → Follows rest → Follows rest' →
    d.text.toList ++ rest = d'.text.toList ++ rest' → d = d' ∧ rest = rest'

theorem IsBare.exists_cons {text : String} (h : IsBare text) :
    ∃ c cs, text.toList = c :: cs ∧ isBareChar c = true := by
  obtain ⟨hne, hbare⟩ := h
  obtain ⟨c, cs, hcs⟩ := List.exists_cons_of_ne_nil (mt String.toList_eq_nil_iff.mp hne)
  exact ⟨c, cs, hcs, hbare c (by rw [hcs]; exact List.mem_cons_self)⟩

/-- A description starts with none of the characters that close one. -/
theorem Readable.exists_cons {d : Description} (h : Readable d) :
    ∃ c cs, d.text.toList = c :: cs ∧ c ≠ ']' ∧ c ≠ ')' ∧ c ≠ ' ' := by
  have hbare {name : String} (hname : IsBare name) (rest : List Char) :
      ∃ c cs, name.toList ++ rest = c :: cs ∧ c ≠ ']' ∧ c ≠ ')' ∧ c ≠ ' ' := by
    obtain ⟨c, cs, hcs, hc⟩ := hname.exists_cons
    refine ⟨c, cs ++ rest, by rw [hcs, List.cons_append], ?_, ?_, ?_⟩ <;>
      · rintro rfl
        cases hc
  cases h with
  | word hword => simpa [text] using hbare hword []
  | string text => exact ⟨'\x22', _, Text.toList_quoted text, by decide, by decide, by decide⟩
  | named hname hpart => simpa [text] using hbare hname _
  | list hparts => simp [Description.list, text]
  | record hname hparts => simpa [text] using hbare hname _
  | choice hname hcontent => simpa [Description.choice, text] using hbare hname _

theorem Readable.text_append_ne {d : Description} (h : Readable d) (rest : List Char)
    {rest' : List Char} (hrest' : Closes rest') : d.text.toList ++ rest ≠ rest' := by
  obtain ⟨c, cs, hcs, hlist, hchoice, hrecord⟩ := h.exists_cons
  rw [hcs, List.cons_append]
  rintro rfl
  generalize cs ++ rest = tail at hrest'
  cases hrest' <;> contradiction

theorem follows_moreText_append (parts : List Description) {rest : List Char}
    (hrest : Closes rest) : Follows (moreText parts ++ rest) := by
  cases parts with
  | nil => exact .closes hrest
  | cons part parts => exact .comma _

theorem Closes.ne_comma {rest rest' : List Char} (h : Closes rest) : rest ≠ ',' :: rest' := by
  rintro rfl
  cases h

theorem moreText_append_inj {parts parts' : List Description} (h : ∀ part ∈ parts, Distinct part)
    (h' : ∀ part ∈ parts', Readable part) {rest rest' : List Char} (hrest : Closes rest)
    (hrest' : Closes rest') (heq : moreText parts ++ rest = moreText parts' ++ rest') :
    parts = parts' ∧ rest = rest' := by
  induction parts generalizing parts' with
  | nil =>
    cases parts' with
    | nil => exact ⟨rfl, heq⟩
    | cons part' parts' => exact absurd heq hrest.ne_comma
  | cons part parts ih =>
    cases parts' with
    | nil => exact absurd heq.symm hrest'.ne_comma
    | cons part' parts' =>
      rw [List.forall_mem_cons] at h h'
      simp only [moreText, List.flatMap_cons, List.cons_append, List.append_assoc,
        List.cons.injEq, true_and] at heq
      obtain ⟨rfl, hmore⟩ := h.1 h'.1 (follows_moreText_append parts hrest)
        (follows_moreText_append parts' hrest') heq
      obtain ⟨rfl, rfl⟩ := ih h.2 h'.2 hmore
      exact ⟨rfl, rfl⟩

/-- Parts that can be told apart can be told apart between brackets. -/
theorem partsText_append_inj {parts parts' : List Description}
    (hparts : ∀ part ∈ parts, Readable part) (h : ∀ part ∈ parts, Distinct part)
    (h' : ∀ part ∈ parts', Readable part) {rest rest' : List Char} (hrest : Closes rest)
    (hrest' : Closes rest') (heq : partsText parts ++ rest = partsText parts' ++ rest') :
    parts = parts' ∧ rest = rest' := by
  cases parts with
  | nil =>
    cases parts' with
    | nil => exact ⟨rfl, heq⟩
    | cons part' parts' =>
      rw [partsText_cons, List.append_assoc] at heq
      exact absurd heq.symm ((h' part' List.mem_cons_self).text_append_ne _ hrest)
  | cons part parts =>
    rw [partsText_cons, List.append_assoc] at heq
    cases parts' with
    | nil => exact absurd heq ((hparts part List.mem_cons_self).text_append_ne _ hrest')
    | cons part' parts' =>
      rw [List.forall_mem_cons] at h h'
      rw [partsText_cons, List.append_assoc] at heq
      obtain ⟨rfl, hmore⟩ := h.1 h'.1 (follows_moreText_append parts hrest)
        (follows_moreText_append parts' hrest') heq
      obtain ⟨rfl, rfl⟩ := moreText_append_inj h.2 h'.2 hrest hrest' hmore
      exact ⟨rfl, rfl⟩

/-- The description opens like another one with the same text, and what follows is the same. -/
theorem Readable.opens_of_eq {d d' : Description} (h' : Readable d') {rest rest' body : List Char}
    {start : Opening} (hrest' : Follows rest')
    (hopening : opening (d.text.toList ++ rest) = (start, body))
    (heq : d.text.toList ++ rest = d'.text.toList ++ rest') : Opens rest' d' start body := by
  have hopens := h'.opens hrest'
  rwa [← heq, hopening] at hopens

/-- Texts that open in the same way are those of descriptions that are built in the same way, and
the parts agree one after the other. -/
theorem Readable.distinct {d : Description} (h : Readable d) : Distinct d := by
  induction h with
  | word hbare =>
    intro d' rest rest' h' hrest hrest' heq
    have hopens := h'.opens_of_eq hrest' (opening_word hbare hrest) heq
    cases hopens
    exact ⟨rfl, rfl⟩
  | string text =>
    intro d' rest rest' h' hrest hrest' heq
    have hopens := h'.opens_of_eq hrest' (opening_string text rest) heq
    generalize hbody : text.toList.flatMap Text.escaped ++ '\x22' :: rest = body at hopens
    cases hopens
    obtain ⟨htext, rfl⟩ := Text.flatMap_escaped_append_inj hbody
    exact ⟨by rw [String.toList_inj.mp htext], rfl⟩
  | @named name part hname hpart ih =>
    intro d' rest rest' h' hrest hrest' heq
    have hopens := h'.opens_of_eq hrest' (opening_named hname part rest) heq
    generalize hbody : part.text.toList ++ rest = body at hopens
    cases hopens with
    | named _ hpart' =>
      obtain ⟨rfl, rfl⟩ := ih hpart' hrest hrest' hbody
      exact ⟨rfl, rfl⟩
  | @list parts hparts ih =>
    intro d' rest rest' h' hrest hrest' heq
    have hopens := h'.opens_of_eq hrest' (opening_list parts rest) heq
    generalize hbody : partsText parts ++ ']' :: rest = body at hopens
    cases hopens with
    | list hparts' =>
      obtain ⟨rfl, hclosed⟩ :=
        partsText_append_inj hparts ih hparts' (.list rest) (.list rest') hbody
      exact ⟨rfl, (List.cons.inj hclosed).2⟩
  | @record name parts hname hparts ih =>
    intro d' rest rest' h' hrest hrest' heq
    have hopens := h'.opens_of_eq hrest' (opening_record hname parts rest) heq
    generalize hbody : partsText parts ++ ' ' :: '\x7d' :: rest = body at hopens
    cases hopens with
    | record _ hparts' =>
      obtain ⟨rfl, hclosed⟩ :=
        partsText_append_inj hparts ih hparts' (.record rest) (.record rest') hbody
      exact ⟨rfl, (List.cons.inj (List.cons.inj hclosed).2).2⟩
  | @choice name content hname hcontent ih =>
    intro d' rest rest' h' hrest hrest' heq
    have hopens := h'.opens_of_eq hrest' (opening_choice hname content rest) heq
    generalize hbody : content.text.toList ++ ')' :: rest = body at hopens
    cases hopens with
    | choice _ hcontent' =>
      obtain ⟨rfl, hclosed⟩ := ih hcontent' (.closes (.choice rest)) (.closes (.choice rest')) hbody
      exact ⟨rfl, (List.cons.inj hclosed).2⟩

/-- A description that can be read back is determined by its text. -/
theorem Readable.eq_of_text_eq {d d' : Description} (h : Readable d) (h' : Readable d')
    (htext : d.text = d'.text) : d = d' := by
  have heq : d.text.toList ++ [] = d'.text.toList ++ [] := by rw [htext]
  exact (h.distinct h' .nothing .nothing heq).1

end Description

end ExprLang
