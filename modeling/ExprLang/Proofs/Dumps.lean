import ExprLang.Proofs.Labels
import ExprLang.Proofs.Likeness
import ExprLang.Proofs.Outlines

/-!
# Reading Trees Back from Their Listings

The parts of an entry tell the node apart that has them: the last part of an assignment is its
value, the third part of a conditional statement is its else branch, and the entries of expressions
are none of statements.  So a listing determines its tree, up to numbers that are written in the
same way.
-/

namespace ExprLang

open Outline (SameTexts)

/-- The numbers are written in the same way. -/
def Binary64.SameText (value value' : Binary64) : Prop := toString value = toString value'

theorem Outline.SameTexts.label {outline other : Outline} (h : outline.SameTexts other)
    (hlegible : outline.label.Legible) (hlegible' : other.label.Legible) :
    outline.label.Alike other.label :=
  Label.alike_of_text_eq hlegible hlegible' h.text_eq

namespace Expr

mutual

theorem inner_outline : (x : Expr) → x.outline.Inner
  | number _ => .entry rfl (by simp)
  | var _ => .entry rfl (by simp)
  | binary _ left right =>
    .entry rfl (by simpa using ⟨inner_outline left, inner_outline right⟩)
  | call _ arguments => .entry rfl (inner_outlineAll arguments)

theorem inner_outlineAll : (xs : List Expr) → ∀ part ∈ outlineAll xs, part.Inner
  | [] => by simp [outlineAll]
  | x :: xs => List.forall_mem_cons.mpr ⟨inner_outline x, inner_outlineAll xs⟩

end

theorem legible_label (x : Expr) : x.outline.label.Legible := by
  cases x <;> trivial

mutual

theorem alike_of_outline (x y : Expr) (h : x.outline.SameTexts y.outline) :
    x.Alike Binary64.SameText y := by
  have hlabel := h.label x.legible_label y.legible_label
  have hparts := h.parts
  cases x with
  | number value =>
    cases y with
    | number value' =>
      cases hlabel with
      | number hsame => exact .number hsame
      | same => exact .number rfl
    | _ => cases hlabel
  | var name =>
    cases y with
    | var name' =>
      cases hlabel
      exact .var name
    | _ => cases hlabel
  | binary operator left right =>
    cases y with
    | binary operator' left' right' =>
      cases hlabel
      obtain ⟨hleft, hparts⟩ := List.forall₂_cons.mp hparts
      obtain ⟨hright, -⟩ := List.forall₂_cons.mp hparts
      exact .binary operator (alike_of_outline left left' hleft)
        (alike_of_outline right right' hright)
    | _ => cases hlabel
  | call callee arguments =>
    cases y with
    | call callee' arguments' =>
      cases hlabel
      exact .call callee (alike_of_outlineAll arguments arguments' hparts)
    | _ => cases hlabel

theorem alike_of_outlineAll (xs ys : List Expr)
    (h : List.Forall₂ SameTexts (outlineAll xs) (outlineAll ys)) :
    List.Forall₂ (Alike Binary64.SameText) xs ys := by
  cases xs with
  | nil =>
    cases ys with
    | nil => exact .nil
    | cons y ys => cases h
  | cons x xs =>
    cases ys with
    | nil => cases h
    | cons y ys =>
      obtain ⟨hfirst, hrest⟩ := List.forall₂_cons.mp h
      exact .cons (alike_of_outline x y hfirst) (alike_of_outlineAll xs ys hrest)

end

end Expr

/-! ## Statements -/

theorem forall₂_concat_iff {α β : Type} {R : α → β → Prop} {as : List α} {bs : List β} {a : α}
    {b : β} : List.Forall₂ R (as ++ [a]) (bs ++ [b]) ↔ List.Forall₂ R as bs ∧ R a b := by
  rw [← List.forall₂_reverse_iff, List.reverse_concat, List.reverse_concat, List.forall₂_cons,
    List.forall₂_reverse_iff, and_comm]

namespace Stmt

mutual

theorem inner_outline : (s : Stmt) → s.outline.Inner
  | expression value => value.inner_outline
  | compound body => .entry rfl (inner_outlineAll body)
  | assignment targets value => .entry rfl fun part hpart ↦ by
    rcases List.mem_append.mp hpart with hpart | hpart
    · obtain ⟨name, -, rfl⟩ := List.mem_map.mp hpart
      exact .entry rfl (by simp)
    · obtain rfl := List.mem_singleton.mp hpart
      exact value.inner_outline
  | result value => .entry rfl (by simpa using value.inner_outline)
  | conditional condition body otherwise =>
    .entry rfl (List.forall_mem_cons.mpr ⟨condition.inner_outline,
      List.forall_mem_cons.mpr ⟨.entry rfl (inner_outlineAll body), inner_outlineElse otherwise⟩⟩)
  | loop _ initial condition step body => .entry rfl (by
    simpa using ⟨initial.inner_outline, condition.inner_outline, step.inner_outline,
      Outline.Inner.entry rfl (inner_outlineAll body)⟩)

theorem inner_outlineAll : (body : Block) → ∀ part ∈ outlineAll body, part.Inner
  | [] => by simp [outlineAll]
  | s :: body => List.forall_mem_cons.mpr ⟨inner_outline s, inner_outlineAll body⟩

theorem inner_outlineElse : (branch : ElseBranch) → ∀ part ∈ outlineElse branch, part.Inner
  | .absent => by simp [outlineElse]
  | .elseIf condition body otherwise => List.forall_mem_singleton.mpr
    (.entry rfl (List.forall_mem_cons.mpr ⟨condition.inner_outline,
      List.forall_mem_cons.mpr ⟨.entry rfl (inner_outlineAll body), inner_outlineElse otherwise⟩⟩))
  | .block body => List.forall_mem_singleton.mpr (.entry rfl (inner_outlineAll body))

end

theorem legible_label (s : Stmt) : s.outline.label.Legible := by
  cases s with
  | expression value => exact value.legible_label
  | _ => trivial

/-- The targets of an assignment have entries like variables, and its value comes last. -/
theorem eq_of_assignment_parts {targets targets' : List String} {value value' : Outline}
    (h : List.Forall₂ SameTexts (targets.map (fun name ↦ .entry (.var name) []) ++ [value])
      (targets'.map (fun name ↦ .entry (.var name) []) ++ [value'])) :
    targets = targets' ∧ value.SameTexts value' := by
  obtain ⟨htargets, hvalue⟩ := forall₂_concat_iff.mp h
  rw [List.forall₂_map_left_iff, List.forall₂_map_right_iff] at htargets
  have hnames (name name' : String)
      (h : SameTexts (.entry (.var name) []) (.entry (.var name') [])) : name = name' := by
    cases h.label trivial trivial
    rfl
  have heq := htargets.imp hnames
  rw [List.forall₂_eq_eq_eq] at heq
  exact ⟨heq, hvalue⟩

mutual

theorem alike_of_outline (s t : Stmt) (h : s.outline.SameTexts t.outline) :
    s.Alike Binary64.SameText t := by
  have hlabel := h.label s.legible_label t.legible_label
  have hparts := h.parts
  cases s with
  | expression value =>
    cases t with
    | expression value' => exact .expression (value.alike_of_outline value' h)
    -- no other statement has the label of an expression
    | _ => cases value <;> cases hlabel
  | compound body =>
    cases t with
    | expression value' => cases value' <;> cases hlabel
    | compound body' => exact .compound (alike_of_outlineAll body body' hparts)
    | _ => cases hlabel
  | assignment targets value =>
    cases t with
    | expression value' => cases value' <;> cases hlabel
    | assignment targets' value' =>
      obtain ⟨rfl, hvalue⟩ := eq_of_assignment_parts hparts
      exact .assignment targets (value.alike_of_outline value' hvalue)
    | _ => cases hlabel
  | result value =>
    cases t with
    | expression value' => cases value' <;> cases hlabel
    | result value' =>
      obtain ⟨hvalue, -⟩ := List.forall₂_cons.mp hparts
      exact .result (value.alike_of_outline value' hvalue)
    | _ => cases hlabel
  | conditional condition body otherwise =>
    cases t with
    | expression value' => cases value' <;> cases hlabel
    | conditional condition' body' otherwise' =>
      obtain ⟨hcondition, hparts⟩ := List.forall₂_cons.mp hparts
      obtain ⟨hbody, hotherwise⟩ := List.forall₂_cons.mp hparts
      exact .conditional (condition.alike_of_outline condition' hcondition)
        (alike_of_outlineAll body body' hbody.parts)
        (alike_of_outlineElse otherwise otherwise' hotherwise)
    | _ => cases hlabel
  | loop index initial condition step body =>
    cases t with
    | expression value' => cases value' <;> cases hlabel
    | loop index' initial' condition' step' body' =>
      cases hlabel
      obtain ⟨hinitial, hparts⟩ := List.forall₂_cons.mp hparts
      obtain ⟨hcondition, hparts⟩ := List.forall₂_cons.mp hparts
      obtain ⟨hstep, hparts⟩ := List.forall₂_cons.mp hparts
      obtain ⟨hbody, -⟩ := List.forall₂_cons.mp hparts
      exact .loop index (initial.alike_of_outline initial' hinitial)
        (condition.alike_of_outline condition' hcondition) (step.alike_of_outline step' hstep)
        (alike_of_outlineAll body body' hbody.parts)
    | _ => cases hlabel

theorem alike_of_outlineAll (body body' : Block)
    (h : List.Forall₂ SameTexts (outlineAll body) (outlineAll body')) :
    List.Forall₂ (Alike Binary64.SameText) body body' := by
  cases body with
  | nil =>
    cases body' with
    | nil => exact .nil
    | cons t body' => cases h
  | cons s body =>
    cases body' with
    | nil => cases h
    | cons t body' =>
      obtain ⟨hfirst, hrest⟩ := List.forall₂_cons.mp h
      exact .cons (alike_of_outline s t hfirst) (alike_of_outlineAll body body' hrest)

/-- An else branch is there if it has an entry, and the next link of a chain has another label than
the last block. -/
theorem alike_of_outlineElse (branch branch' : ElseBranch)
    (h : List.Forall₂ SameTexts (outlineElse branch) (outlineElse branch')) :
    branch.Alike Binary64.SameText branch' := by
  cases branch with
  | absent =>
    cases branch' with
    | absent => exact .absent
    | _ => cases h
  | elseIf condition body otherwise =>
    cases branch' with
    | absent => cases h
    | elseIf condition' body' otherwise' =>
      obtain ⟨hlink, -⟩ := List.forall₂_cons.mp h
      obtain ⟨hcondition, hparts⟩ := List.forall₂_cons.mp hlink.parts
      obtain ⟨hbody, hotherwise⟩ := List.forall₂_cons.mp hparts
      exact .elseIf (condition.alike_of_outline condition' hcondition)
        (alike_of_outlineAll body body' hbody.parts)
        (alike_of_outlineElse otherwise otherwise' hotherwise)
    | block body' =>
      obtain ⟨hlink, -⟩ := List.forall₂_cons.mp h
      cases hlink.label trivial trivial
  | block body =>
    cases branch' with
    | absent => cases h
    | elseIf condition' body' otherwise' =>
      obtain ⟨hlink, -⟩ := List.forall₂_cons.mp h
      cases hlink.label trivial trivial
    | block body' =>
      obtain ⟨hblock, -⟩ := List.forall₂_cons.mp h
      exact .block (alike_of_outlineAll body body' hblock.parts)

end

end Stmt

/-- The parameters can be read back. -/
def Prototype.Legible (prototype : Prototype) : Prop :=
  ∀ parameter ∈ prototype.parameters, IsLegible parameter

structure SourceUnit.Legible (unit : SourceUnit) : Prop where
  prototypes : ∀ prototype ∈ unit.prototypes, prototype.Legible
  definitions : ∀ definition ∈ unit.definitions, definition.prototype.Legible

theorem Prototype.eq_of_outline {p q : Prototype} (hp : p.Legible) (hq : q.Legible)
    (h : p.outline.SameTexts q.outline) : p = q := by
  cases p
  cases q
  cases h.label hp hq
  rfl

theorem Definition.alike_of_outline {d e : Definition} (hd : d.prototype.Legible)
    (he : e.prototype.Legible) (h : d.outline.SameTexts e.outline) :
    d.Alike Binary64.SameText e := by
  obtain ⟨hprototype, hparts⟩ := List.forall₂_cons.mp h.parts
  obtain ⟨hbody, -⟩ := List.forall₂_cons.mp hparts
  exact ⟨Prototype.eq_of_outline hd he hprototype,
    Stmt.alike_of_outlineAll d.body e.body hbody.parts⟩

theorem definitions_alike : {ds es : List Definition} → (∀ d ∈ ds, d.prototype.Legible) →
    (∀ e ∈ es, e.prototype.Legible) →
    List.Forall₂ SameTexts (ds.map Definition.outline) (es.map Definition.outline) →
    List.Forall₂ (Definition.Alike Binary64.SameText) ds es
  | [], [], _, _, _ => .nil
  | d :: ds, e :: es, hds, hes, h => by
    obtain ⟨hfirst, hrest⟩ := List.forall₂_cons.mp h
    rw [List.forall_mem_cons] at hds hes
    exact .cons (Definition.alike_of_outline hds.1 hes.1 hfirst)
      (definitions_alike hds.2 hes.2 hrest)

/-- Prototypes and definitions have different labels, so the definitions start at the same place. -/
theorem declarations_alike {ps qs : List Prototype} {ds es : List Definition}
    (hps : ∀ p ∈ ps, p.Legible) (hqs : ∀ q ∈ qs, q.Legible)
    (hds : ∀ d ∈ ds, d.prototype.Legible) (hes : ∀ e ∈ es, e.prototype.Legible)
    (h : List.Forall₂ SameTexts (ps.map Prototype.outline ++ ds.map Definition.outline)
      (qs.map Prototype.outline ++ es.map Definition.outline)) :
    ps = qs ∧ List.Forall₂ (Definition.Alike Binary64.SameText) ds es := by
  induction ps generalizing qs with
  | nil =>
    cases qs with
    | nil => exact ⟨rfl, definitions_alike hds hes h⟩
    | cons q qs =>
      cases ds with
      | nil => cases h
      | cons d ds =>
        obtain ⟨hfirst, -⟩ := List.forall₂_cons.mp h
        cases hfirst.label trivial (hqs q (by simp))
  | cons p ps ih =>
    rw [List.forall_mem_cons] at hps
    cases qs with
    | nil =>
      cases es with
      | nil => cases h
      | cons e es =>
        obtain ⟨hfirst, -⟩ := List.forall₂_cons.mp h
        cases hfirst.label hps.1 trivial
    | cons q qs =>
      rw [List.forall_mem_cons] at hqs
      obtain ⟨hfirst, hrest⟩ := List.forall₂_cons.mp h
      obtain ⟨rfl, hdefinitions⟩ := ih hps.2 hqs.2 hrest
      exact ⟨by rw [Prototype.eq_of_outline hps.1 hqs.1 hfirst], hdefinitions⟩

theorem SourceUnit.alike_of_outline {u v : SourceUnit} (hu : u.Legible) (hv : v.Legible)
    (h : u.outline.SameTexts v.outline) : u.Alike Binary64.SameText v := by
  obtain ⟨hprototypes, hdefinitions⟩ :=
    declarations_alike hu.prototypes hv.prototypes hu.definitions hv.definitions h.parts
  have hlabel : Label.Alike (.unit u.name) (.unit v.name) := h.label trivial trivial
  refine ⟨?_, hprototypes, hdefinitions⟩
  generalize u.name = name at hlabel ⊢
  cases hlabel
  rfl

/-! ## Nodes -/

namespace Node

variable {node other : Node}

def Legible : Node → Prop
  | prototype p => p.Legible
  | definition d => d.prototype.Legible
  | unit u => u.Legible
  | _ => True

theorem inner_parts (node : Node) : ∀ part ∈ node.outline.parts, part.Inner := by
  have hprototype (p : Prototype) : p.outline.Inner := .entry rfl (by simp)
  have hdefinition (d : Definition) : d.outline.Inner := by
    refine .entry rfl (List.forall_mem_cons.mpr ⟨hprototype d.prototype, ?_⟩)
    exact List.forall_mem_singleton.mpr (.entry rfl (Stmt.inner_outlineAll d.body))
  cases node with
  | expr x => exact x.inner_outline.parts
  | stmt s => exact s.inner_outline.parts
  | block body => exact Stmt.inner_outlineAll body
  | prototype p => exact (hprototype p).parts
  | definition d => exact (hdefinition d).parts
  | unit u =>
    intro part hpart
    rcases List.mem_append.mp hpart with hpart | hpart
    · obtain ⟨p, -, rfl⟩ := List.mem_map.mp hpart
      exact hprototype p
    · obtain ⟨d, -, rfl⟩ := List.mem_map.mp hpart
      exact hdefinition d

theorem SameType.isUnit_label (h : node.SameType other) :
    node.outline.label.isUnit = other.outline.label.isUnit := by
  cases h with
  | expr x y => exact x.inner_outline.isUnit_label.trans y.inner_outline.isUnit_label.symm
  | stmt s t => exact s.inner_outline.isUnit_label.trans t.inner_outline.isUnit_label.symm
  | _ => rfl

/-- Nodes of the same type with the same listing are alike. -/
theorem alike_of_dump_eq (htype : node.SameType other) (h : node.Legible) (h' : other.Legible)
    (hdump : node.dump = other.dump) : node.Alike Binary64.SameText other := by
  rw [dump_eq, dump_eq] at hdump
  have hsame := Outline.sameTexts_of_lines_eq htype.isUnit_label node.inner_parts other.inner_parts
    hdump
  cases htype with
  | expr x y => exact .expr (x.alike_of_outline y hsame)
  | stmt s t => exact .stmt (s.alike_of_outline t hsame)
  | block body body' => exact .block (Stmt.alike_of_outlineAll body body' hsame.parts)
  | prototype p q =>
    rw [Prototype.eq_of_outline h h' hsame]
    exact .prototype q
  | definition d e => exact .definition (Definition.alike_of_outline h h' hsame)
  | unit u v => exact .unit (SourceUnit.alike_of_outline h h' hsame)

/-- An assignment and a chain of conditions in a definition, with one number left open. -/
def openSample (value : Binary64) : Node :=
  .unit ⟨"main", [⟨"f", ["a", "b"]⟩], [⟨⟨"g", ["x"]⟩,
    [.assignment ["y", "z"] (.var "x"),
      .conditional (.binary .less (.var "x") (.number value)) [.expression (.call "f" [])]
        (.elseIf (.var "y") [] (.block [.result (.number .zero)]))]⟩]⟩

theorem legible_openSample (value : Binary64) : (openSample value).Legible := by
  constructor
  · simp [Prototype.Legible, IsLegible]
  · simp [Prototype.Legible, IsLegible]

def nan (negative : Bool) : Binary64 := ⟨negative, 0x7FF8000000000000⟩

/-- A NaN is written without its sign. -/
theorem alike_of_dump_eq_nan : (openSample (nan false)).dump = (openSample (nan true)).dump ∧
    (openSample (nan false)).Alike Binary64.SameText (openSample (nan true)) := by
  have hdump : (openSample (nan false)).dump = (openSample (nan true)).dump := by decide
  exact ⟨hdump, alike_of_dump_eq (.unit _ _) (legible_openSample _) (legible_openSample _) hdump⟩

end Node

end ExprLang
