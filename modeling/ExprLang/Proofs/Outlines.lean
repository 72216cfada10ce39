import ExprLang.Tree.Outline
import Mathlib.Data.List.Forall2

/-!
# Outlines and Their Lines

A walk yields the lines of its outline.  A line is indented by its depth, so the parts of an entry
are the deeper lines that follow its own, and the lines of two outlines are equal only if the
outlines have the same shape and the same texts.
-/

namespace ExprLang

namespace Outline

theorem linesAll_eq (depth : Nat) (parts : List Outline) :
    linesAll depth parts = parts.flatMap (lines depth) := by
  induction parts with
  | nil => rfl
  | cons part parts ih => rw [linesAll, ih, List.flatMap_cons]

theorem sizeAll_append (parts more : List Outline) :
    sizeAll (parts ++ more) = sizeAll parts + sizeAll more := by
  induction parts with
  | nil => simp [sizeAll]
  | cons part parts ih => simp [sizeAll, ih, Nat.add_assoc]

end Outline

/-- The parts of the entry that is taken come before everything else that is pending. -/
theorem Walk.take_eq {n : Nat} {walk : Walk} (h : walk.size ≤ n) :
    walk.take n = walk.pending.flatMap fun entry ↦ entry.2.lines entry.1 := by
  induction n generalizing walk with
  | zero =>
    obtain ⟨_ | ⟨⟨depth, ⟨label, parts⟩⟩, rest⟩⟩ := walk
    · rfl
    · simp [size, Outline.sizeAll, Outline.size] at h
  | succ n ih =>
    obtain ⟨_ | ⟨⟨depth, ⟨label, parts⟩⟩, rest⟩⟩ := walk
    · rfl
    · have hsize : Walk.size ⟨parts.map (fun part ↦ (depth + 1, part)) ++ rest⟩ ≤ n := by
        simp only [size, List.map_cons, Outline.sizeAll, Outline.size] at h
        simp only [size, List.map_append, List.map_map, Outline.sizeAll_append,
          Function.comp_def, List.map_id']
        omega
      have htake : (⟨(depth, ⟨label, parts⟩) :: rest⟩ : Walk).take (n + 1) =
          label.line depth ::
            Walk.take n ⟨parts.map (fun part ↦ (depth + 1, part)) ++ rest⟩ := rfl
      rw [htake, ih hsize]
      simp [Outline.lines, Outline.linesAll_eq, List.flatMap_map]

theorem Node.dump_eq (node : Node) : node.dump = node.outline.lines 0 := by
  rw [dump, Walk.rest, Walk.take_eq (Nat.le_refl _)]
  simp [walk, Walk.start]

/-- The number of blanks at the start of a line. -/
def indentation (line : String) : Nat := (line.toList.takeWhile fun c ↦ c = ' ').length

namespace Label

def isUnit : Label → Bool
  | unit _ => true
  | _ => false

theorem line_eq {label : Label} (h : label.isUnit = false) (depth : Nat) :
    label.line depth = String.ofList (List.replicate (2 * depth) ' ') ++ "- " ++ label.text := by
  cases label with
  | unit name => cases h
  | _ => rfl

theorem indentation_line {label : Label} (h : label.isUnit = false) (depth : Nat) :
    indentation (label.line depth) = 2 * depth := by
  simp [indentation, line_eq h, List.takeWhile_append_of_pos]

theorem text_eq_of_line_eq {label label' : Label} (h : label.isUnit = label'.isUnit) {depth : Nat}
    (hline : label.line depth = label'.line depth) : label.text = label'.text := by
  cases hunit : label'.isUnit with
  | true =>
    rw [hunit] at h
    cases label <;> cases h
    cases label' <;> cases hunit
    exact hline
  | false =>
    rw [line_eq (h.trans hunit), line_eq hunit] at hline
    exact (String.append_right_inj _).mp hline

end Label

namespace Outline

/-- Only the whole outline of a source has the entry of a unit. -/
inductive Inner : Outline → Prop
  | entry {label : Label} {parts : List Outline} : label.isUnit = false →
      (∀ part ∈ parts, Inner part) → Inner (.entry label parts)

namespace Inner

variable {outline : Outline}

theorem isUnit_label (h : outline.Inner) : outline.label.isUnit = false := by
  obtain ⟨hlabel, -⟩ := h
  exact hlabel

theorem parts (h : outline.Inner) : ∀ part ∈ outline.parts, part.Inner := by
  obtain ⟨-, hparts⟩ := h
  exact hparts

end Inner

/-- The outlines have the same shape, and their entries have the same texts. -/
inductive SameTexts : Outline → Outline → Prop
  | entry {label label' : Label} {parts parts' : List Outline} : label.text = label'.text →
      List.Forall₂ SameTexts parts parts' → SameTexts (.entry label parts) (.entry label' parts')

namespace SameTexts

variable {outline other : Outline}

theorem text_eq (h : outline.SameTexts other) : outline.label.text = other.label.text := by
  obtain ⟨htext, -⟩ := h
  exact htext

theorem parts (h : outline.SameTexts other) :
    List.Forall₂ SameTexts outline.parts other.parts := by
  obtain ⟨-, hparts⟩ := h
  exact hparts

end SameTexts

/-- The lines do not go on with an entry at the given depth or deeper. -/
def Shallow (depth : Nat) (lines : List String) : Prop :=
  ∀ line ∈ lines.head?, indentation line < 2 * depth

theorem not_shallow {depth : Nat} {part : Outline} (hinner : part.Inner) (parts : List Outline)
    (rest : List String) : ¬ Shallow depth (linesAll depth (part :: parts) ++ rest) := by
  obtain ⟨hlabel, -⟩ := hinner
  intro h
  have hlt := h _ rfl
  rw [Label.indentation_line hlabel] at hlt
  exact Nat.lt_irrefl _ hlt

theorem shallow_linesAll_append {depth : Nat} {parts : List Outline} {rest : List String}
    (hinner : ∀ part ∈ parts, part.Inner) (hrest : Shallow depth rest) :
    Shallow (depth + 1) (linesAll depth parts ++ rest) := by
  intro line hline
  cases parts with
  | nil =>
    have := hrest line hline
    omega
  | cons part parts =>
    obtain ⟨hlabel, -⟩ := hinner part List.mem_cons_self
    obtain rfl := Option.some.inj hline
    rw [Label.indentation_line hlabel]
    omega

/-- Lines at a depth determine their outlines and where they end.  Behind the line of an entry stand
the lines of its parts, which are deeper, and then those of its siblings. -/
theorem linesAll_append_inj : (parts parts' : List Outline) → (∀ part ∈ parts, part.Inner) →
    (∀ part ∈ parts', part.Inner) → (depth : Nat) → (rest rest' : List String) →
    Shallow depth rest → Shallow depth rest' →
    linesAll depth parts ++ rest = linesAll depth parts' ++ rest' →
    List.Forall₂ SameTexts parts parts' ∧ rest = rest'
  | [], [], _, _, _, _, _, _, _, h => ⟨.nil, h⟩
  | [], part' :: more', _, hinner', depth, rest, rest', hrest, _, h => by
    obtain rfl : rest = linesAll depth (part' :: more') ++ rest' := h
    exact absurd hrest (not_shallow (hinner' part' List.mem_cons_self) more' rest')
  | part :: more, [], hinner, _, depth, rest, rest', _, hrest', h => by
    obtain rfl : linesAll depth (part :: more) ++ rest = rest' := h
    exact absurd hrest' (not_shallow (hinner part List.mem_cons_self) more rest)
  | .entry label parts :: more, .entry label' parts' :: more', hinner, hinner', depth, rest, rest',
      hrest, hrest', h => by
    rw [List.forall_mem_cons] at hinner hinner'
    obtain ⟨⟨hlabel, hparts⟩, hmore⟩ := hinner
    obtain ⟨⟨hlabel', hparts'⟩, hmore'⟩ := hinner'
    simp only [linesAll, lines, List.cons_append, List.append_assoc, List.cons.injEq] at h
    have htext := Label.text_eq_of_line_eq (hlabel.trans hlabel'.symm) h.1
    obtain ⟨hsame, hbehind⟩ := linesAll_append_inj parts parts' hparts hparts' (depth + 1) _ _
      (shallow_linesAll_append hmore hrest) (shallow_linesAll_append hmore' hrest') h.2
    obtain ⟨hsiblings, heq⟩ := linesAll_append_inj more more' hmore hmore' depth rest rest'
      hrest hrest' hbehind
    exact ⟨.cons (.entry htext hsame) hsiblings, heq⟩

/-- Lines determine their outline if it is known whether it is that of a unit. -/
theorem sameTexts_of_lines_eq {outline other : Outline}
    (hlabel : outline.label.isUnit = other.label.isUnit)
    (hparts : ∀ part ∈ outline.parts, part.Inner) (hparts' : ∀ part ∈ other.parts, part.Inner)
    {depth : Nat} (h : outline.lines depth = other.lines depth) : outline.SameTexts other := by
  obtain ⟨label, parts⟩ := outline
  obtain ⟨label', parts'⟩ := other
  simp only [lines, List.cons.injEq] at h
  have hempty : Shallow (depth + 1) [] := by simp [Shallow]
  obtain ⟨hsame, -⟩ := linesAll_append_inj parts parts' hparts hparts' (depth + 1) [] []
    hempty hempty (by simpa using h.2)
  exact .entry (Label.text_eq_of_line_eq hlabel h.1) hsame

end Outline

end ExprLang
