import ExprLang.Tree.Outline
import Mathlib.Data.List.Basic

/-!
# Reading Labels Back

The first two letters of a text tell what kind of label it is, and what follows tells the rest.  The
parameters of a prototype can be read back only if what stands between them is not part of them.
-/

namespace ExprLang

variable {α : Type} {mark : α} {left left' right right' : List α}

/-- The first mark splits a text in one way. -/
theorem eq_of_first_mark (hleft : mark ∉ left) (hleft' : mark ∉ left')
    (h : left ++ mark :: right = left' ++ mark :: right') : left = left' ∧ right = right' := by
  rcases List.append_eq_append_iff.mp h with ⟨more, rfl, hmore⟩ | ⟨more, rfl, hmore⟩
  · cases more with
    | nil => simpa using hmore
    | cons c more =>
      obtain ⟨rfl, -⟩ := List.cons.inj hmore
      simp at hleft'
  · cases more with
    | nil => simpa [eq_comm] using hmore
    | cons c more =>
      obtain ⟨rfl, -⟩ := List.cons.inj hmore
      simp at hleft

/-- So does the last mark. -/
theorem eq_of_last_mark (hright : mark ∉ right) (hright' : mark ∉ right')
    (h : left ++ mark :: right = left' ++ mark :: right') : left = left' ∧ right = right' := by
  have hreverse := congrArg List.reverse h
  simp only [List.reverse_append, List.reverse_cons, List.append_assoc, List.singleton_append]
    at hreverse
  obtain ⟨hright, hleft⟩ := eq_of_first_mark (by simpa using hright) (by simpa using hright')
    hreverse
  exact ⟨List.reverse_injective hleft, List.reverse_injective hright⟩

/-- The name of a parameter that can be read back: it is not empty and has no opening parenthesis
and no comma in it. -/
def IsLegible (parameter : String) : Prop :=
  parameter ≠ "" ∧ '(' ∉ parameter.toList ∧ ',' ∉ parameter.toList

theorem notMem_intercalate {c : Char} {separator : List Char} {texts : List (List Char)}
    (hseparator : c ∉ separator) (h : ∀ text ∈ texts, c ∉ text) :
    c ∉ separator.intercalate texts := by
  induction texts with
  | nil => simp
  | cons text texts ih =>
    rw [List.forall_mem_cons] at h
    cases texts with
    | nil => simpa using h.1
    | cons next texts =>
      rw [List.intercalate_cons_cons, List.mem_append, List.mem_append]
      exact not_or.mpr ⟨not_or.mpr ⟨h.1, hseparator⟩, ih h.2⟩

/-- The blank behind a comma may be counted to the next text. -/
theorem intercalate_comma (text : List Char) (texts : List (List Char)) :
    [',', ' '].intercalate (text :: texts) =
      [','].intercalate (text :: texts.map fun text ↦ ' ' :: text) := by
  induction texts generalizing text with
  | nil => simp
  | cons next texts ih =>
    rw [List.intercalate_cons_cons, ih, List.map_cons, List.intercalate_cons_cons,
      List.intercalate_cons_cons_left]
    simp

theorem intercalate_ne_nil {separator text : List Char} (h : text ≠ [])
    (texts : List (List Char)) : separator.intercalate (text :: texts) ≠ [] := by
  obtain ⟨c, cs, rfl⟩ := List.exists_cons_of_ne_nil h
  simp [List.intercalate_cons_cons_left]

/-- Texts with a comma and a blank between them can be told apart again. -/
theorem intercalate_inj {texts texts' : List (List Char)}
    (h : ∀ text ∈ texts, text ≠ [] ∧ ',' ∉ text) (h' : ∀ text ∈ texts', text ≠ [] ∧ ',' ∉ text)
    (heq : [',', ' '].intercalate texts = [',', ' '].intercalate texts') : texts = texts' := by
  cases texts with
  | nil =>
    cases texts' with
    | nil => rfl
    | cons text' texts' => exact absurd heq.symm (intercalate_ne_nil (h' text' (by simp)).1 texts')
  | cons text texts =>
    cases texts' with
    | nil => exact absurd heq (intercalate_ne_nil (h text (by simp)).1 texts)
    | cons text' texts' =>
      rw [intercalate_comma, intercalate_comma] at heq
      have hsplit := congrArg (List.splitOn ',') heq
      rw [List.splitOn_intercalate ',' _ (by simp), List.splitOn_intercalate ',' _ (by simp)]
        at hsplit
      · simpa [List.map_inj_right] using hsplit
      · simpa using fun text htext ↦ (h' text htext).2
      · simpa using fun text htext ↦ (h text htext).2

namespace Label

/-- The first two letters of the text. -/
def initials : Label → List Char
  | unit _ => ['T', 'r']
  | prototype _ _ => ['P', 'r']
  | definition => ['F', 'u']
  | compound => ['C', 'o']
  | conditional _ => ['I', 'f']
  | assignment => ['A', 's']
  | result => ['R', 'e']
  | loop _ => ['F', 'o']
  | number _ => ['N', 'u']
  | var _ => ['V', 'a']
  | binary _ => ['B', 'i']
  | call _ => ['C', 'a']

theorem take_text (label : Label) : label.text.toList.take 2 = label.initials := by
  cases label with
  | conditional hasElse => cases hasElse <;> rfl
  | _ =>
    unfold text
    simp [initials]

theorem initials_eq_of_text_eq {label label' : Label} (h : label.text = label'.text) :
    label.initials = label'.initials := by
  rw [← take_text, ← take_text, h]

/-- The parameters of a prototype can be read back. -/
def Legible : Label → Prop
  | prototype _ parameters => ∀ parameter ∈ parameters, IsLegible parameter
  | _ => True

/-- The same label, but for a number, of which only the text counts. -/
inductive Alike : Label → Label → Prop
  | number {value value' : Binary64} : toString value = toString value' →
      Alike (.number value) (.number value')
  | same (label : Label) : Alike label label

theorem prototype_eq_of_text_eq {name name' : String} {parameters parameters' : List String}
    (h : ∀ parameter ∈ parameters, IsLegible parameter)
    (h' : ∀ parameter ∈ parameters', IsLegible parameter)
    (htext : (prototype name parameters).text = (prototype name' parameters').text) :
    prototype name parameters = prototype name' parameters' := by
  have hopen (texts : List String) (htexts : ∀ text ∈ texts, IsLegible text) :
      '(' ∉ [',', ' '].intercalate (texts.map String.toList) ++ [')'] := by
    rw [List.mem_append]
    refine not_or.mpr ⟨notMem_intercalate (by decide) ?_, by decide⟩
    rw [List.forall_mem_map]
    exact fun text htext ↦ (htexts text htext).2.1
  have hcomma (texts : List String) (htexts : ∀ text ∈ texts, IsLegible text) :
      ∀ text ∈ texts.map String.toList, text ≠ [] ∧ ',' ∉ text := by
    rw [List.forall_mem_map]
    intro text htext
    obtain ⟨hne, -, hcomma⟩ := htexts text htext
    exact ⟨by simpa using hne, hcomma⟩
  unfold text at htext
  simp only [← String.toList_inj, String.toList_append, String.toList_intercalate,
    List.append_assoc, List.append_cancel_left_eq] at htext
  obtain ⟨hname, hparameters⟩ := eq_of_last_mark (hopen _ h) (hopen _ h') htext
  have hlists := intercalate_inj (hcomma _ h) (hcomma _ h') (List.append_cancel_right hparameters)
  have hinjective : Function.Injective String.toList := fun _ _ ↦ String.toList_inj.mp
  rw [hinjective hname, List.map_injective_iff.mpr hinjective hlists]

/-- A label can be read back from its text. -/
theorem alike_of_text_eq {label label' : Label} (h : label.Legible) (h' : label'.Legible)
    (htext : label.text = label'.text) : label.Alike label' := by
  have hinitials := initials_eq_of_text_eq htext
  cases label <;> cases label' <;> try (simp [initials] at hinitials; done)
  case prototype.prototype name parameters name' parameters' =>
    rw [prototype_eq_of_text_eq h h' htext]
    exact .same _
  all_goals unfold text at htext
  case number.number value value' => exact .number (by simpa using htext)
  case conditional.conditional hasElse hasElse' =>
    obtain rfl : hasElse = hasElse' := by
      cases hasElse <;> cases hasElse' <;> simp at htext ⊢
    exact .same _
  case binary.binary operator operator' =>
    have hsymbol : operator.symbol = operator'.symbol := by simpa using htext
    rw [BinaryOperator.symbol_injective hsymbol]
    exact .same _
  case unit.unit name name' =>
    obtain rfl : name = name' := by simpa using htext
    exact .same _
  case loop.loop index index' =>
    obtain rfl : index = index' := by simpa using htext
    exact .same _
  case var.var name name' =>
    obtain rfl : name = name' := by simpa using htext
    exact .same _
  case call.call callee callee' =>
    obtain rfl : callee = callee' := by simpa using htext
    exact .same _
  all_goals exact .same _

end Label

end ExprLang
