import ExprLang.Proofs.Equality
import ExprLang.Proofs.Likeness

/-!
# Equality Is Likeness

Equality walks through two trees at once and through two chains link by link.  It holds between the
trees that are alike when numbers count as the same if the format says that they are equal.
-/

namespace ExprLang

namespace Binary64

/-- The numbers are equal in their format: a NaN equals nothing, and a zero equals its negative. -/
structure Equal (x y : Binary64) : Prop where
  left : x.isNaN = false
  right : y.isNaN = false
  same : x = y ∨ (x.isZero = true ∧ y.isZero = true)

variable {x y z : Binary64}

theorem beq_iff_equal : (x == y) = true ↔ x.Equal y := by
  change beq x y = true ↔ _
  constructor
  · intro h
    simp only [beq, Bool.and_eq_true, Bool.not_eq_true', Bool.or_eq_true, decide_eq_true_eq] at h
    exact ⟨h.1.1, h.1.2, h.2⟩
  · intro h
    simpa [beq, h.left, h.right] using h.same

theorem Equal.symm (h : x.Equal y) : y.Equal x :=
  ⟨h.right, h.left, h.same.imp Eq.symm And.symm⟩

theorem Equal.trans (h : x.Equal y) (h' : y.Equal z) : x.Equal z := by
  refine ⟨h.left, h'.right, ?_⟩
  rcases h.same with rfl | ⟨hzero, hzero'⟩
  · exact h'.same
  · rcases h'.same with rfl | ⟨-, hzero''⟩
    · exact .inr ⟨hzero, hzero'⟩
    · exact .inr ⟨hzero, hzero''⟩

end Binary64

namespace Expr

mutual

theorem alike_of_beq (x y : Expr) (h : beq x y = true) : x.Alike Binary64.Equal y := by
  cases x with
  | number value =>
    cases y with
    | number value' => exact .number (Binary64.beq_iff_equal.mp h)
    | _ => cases h
  | var name =>
    cases y with
    | var name' =>
      obtain rfl : name = name' := by simpa [beq] using h
      exact .var name
    | _ => cases h
  | binary operator left right =>
    cases y with
    | binary operator' left' right' =>
      simp only [beq, Bool.and_eq_true, beq_iff_eq] at h
      obtain ⟨⟨rfl, hleft⟩, hright⟩ := h
      exact .binary operator (alike_of_beq left left' hleft) (alike_of_beq right right' hright)
    | _ => cases h
  | call callee arguments =>
    cases y with
    | call callee' arguments' =>
      simp only [beq, Bool.and_eq_true, beq_iff_eq] at h
      obtain ⟨rfl, harguments⟩ := h
      exact .call callee (alike_of_beqAll arguments arguments' harguments)
    | _ => cases h

theorem alike_of_beqAll (xs ys : List Expr) (h : beqAll xs ys = true) :
    List.Forall₂ (Alike Binary64.Equal) xs ys := by
  cases xs with
  | nil =>
    cases ys with
    | nil => exact .nil
    | cons y ys => cases h
  | cons x xs =>
    cases ys with
    | nil => cases h
    | cons y ys =>
      rw [beqAll, Bool.and_eq_true] at h
      exact .cons (alike_of_beq x y h.1) (alike_of_beqAll xs ys h.2)

end

mutual

theorem Alike.beq_eq : {x y : Expr} → x.Alike Binary64.Equal y → beq x y = true
  | _, _, .number h => Binary64.beq_iff_equal.mpr h
  | _, _, .var name => by simp [beq]
  | _, _, .binary operator hleft hright => by simp [beq, hleft.beq_eq, hright.beq_eq]
  | _, _, .call callee harguments => by simp [beq, beqAll_of_alike harguments]

theorem beqAll_of_alike : {xs ys : List Expr} → List.Forall₂ (Alike Binary64.Equal) xs ys →
    beqAll xs ys = true
  | _, _, .nil => rfl
  | _, _, .cons hfirst hrest => by simp [beqAll, hfirst.beq_eq, beqAll_of_alike hrest]

end

end Expr

namespace Stmt

mutual

theorem alike_of_beq (s t : Stmt) (h : beq s t = true) : s.Alike Binary64.Equal t := by
  cases s with
  | expression value =>
    cases t with
    | expression value' => exact .expression (value.alike_of_beq value' h)
    | _ => cases h
  | compound body =>
    cases t with
    | compound body' => exact .compound (alike_of_beqAll body body' h)
    | _ => cases h
  | assignment targets value =>
    cases t with
    | assignment targets' value' =>
      simp only [beq, Bool.and_eq_true, beq_iff_eq] at h
      obtain ⟨rfl, hvalue⟩ := h
      exact .assignment targets (value.alike_of_beq value' hvalue)
    | _ => cases h
  | result value =>
    cases t with
    | result value' => exact .result (value.alike_of_beq value' h)
    | _ => cases h
  | conditional condition body otherwise =>
    cases t with
    | conditional condition' body' otherwise' =>
      simp only [beq, Bool.and_eq_true] at h
      obtain ⟨⟨hcondition, hbody⟩, hotherwise⟩ := h
      exact .conditional (condition.alike_of_beq condition' hcondition)
        (alike_of_beqAll body body' hbody) (alike_of_beqBranch otherwise otherwise' hotherwise)
    | _ => cases h
  | loop index initial condition step body =>
    cases t with
    | loop index' initial' condition' step' body' =>
      simp only [beq, Bool.and_eq_true, beq_iff_eq] at h
      obtain ⟨⟨⟨⟨rfl, hinitial⟩, hcondition⟩, hstep⟩, hbody⟩ := h
      exact .loop index (initial.alike_of_beq initial' hinitial)
        (condition.alike_of_beq condition' hcondition) (step.alike_of_beq step' hstep)
        (alike_of_beqAll body body' hbody)
    | _ => cases h

theorem alike_of_beqAll (body body' : Block) (h : beqAll body body' = true) :
    List.Forall₂ (Alike Binary64.Equal) body body' := by
  cases body with
  | nil =>
    cases body' with
    | nil => exact .nil
    | cons t body' => cases h
  | cons s body =>
    cases body' with
    | nil => cases h
    | cons t body' =>
      rw [beqAll, Bool.and_eq_true] at h
      exact .cons (alike_of_beq s t h.1) (alike_of_beqAll body body' h.2)

theorem alike_of_beqBranch (branch branch' : ElseBranch) (h : beqBranch branch branch' = true) :
    branch.Alike Binary64.Equal branch' := by
  cases branch with
  | absent =>
    cases branch' with
    | absent => exact .absent
    | _ => cases h
  | elseIf condition body otherwise =>
    cases branch' with
    | elseIf condition' body' otherwise' =>
      simp only [beqBranch, Bool.and_eq_true] at h
      obtain ⟨⟨hcondition, hbody⟩, hotherwise⟩ := h
      exact .elseIf (condition.alike_of_beq condition' hcondition)
        (alike_of_beqAll body body' hbody) (alike_of_beqBranch otherwise otherwise' hotherwise)
    | _ => cases h
  | block body =>
    cases branch' with
    | block body' => exact .block (alike_of_beqAll body body' h)
    | _ => cases h

end

mutual

theorem Alike.beq_eq : {s t : Stmt} → s.Alike Binary64.Equal t → beq s t = true
  | _, _, .expression hvalue => hvalue.beq_eq
  | _, _, .compound hbody => beqAll_of_alike hbody
  | _, _, .assignment targets hvalue => by simp [beq, hvalue.beq_eq]
  | _, _, .result hvalue => hvalue.beq_eq
  | _, _, .conditional hcondition hbody hotherwise => by
    simp [beq, hcondition.beq_eq, beqAll_of_alike hbody, beqBranch_of_alike hotherwise]
  | _, _, .loop index hinitial hcondition hstep hbody => by
    simp [beq, hinitial.beq_eq, hcondition.beq_eq, hstep.beq_eq, beqAll_of_alike hbody]

theorem beqAll_of_alike : {body body' : Block} →
    List.Forall₂ (Alike Binary64.Equal) body body' → beqAll body body' = true
  | _, _, .nil => rfl
  | _, _, .cons hfirst hrest => by simp [beqAll, hfirst.beq_eq, beqAll_of_alike hrest]

theorem beqBranch_of_alike : {branch branch' : ElseBranch} →
    branch.Alike Binary64.Equal branch' → beqBranch branch branch' = true
  | _, _, .absent => rfl
  | _, _, .elseIf hcondition hbody hotherwise => by
    simp [beqBranch, hcondition.beq_eq, beqAll_of_alike hbody, beqBranch_of_alike hotherwise]
  | _, _, .block hbody => beqAll_of_alike hbody

end

theorem beq_iff_alike {s t : Stmt} : (s == t) = true ↔ s.Alike Binary64.Equal t :=
  ⟨alike_of_beq s t, Alike.beq_eq⟩

theorem blocks_beq_iff_alike {body body' : Block} :
    (body == body') = true ↔ List.Forall₂ (Alike Binary64.Equal) body body' := by
  rw [← beqAll_eq]
  exact ⟨alike_of_beqAll body body', beqAll_of_alike⟩

/-- Two chains of conditions are equal when they have equally many links, equal one by one, and end
in the same way. -/
theorem beq_ofLinks_iff {first first' : Link} {links links' : List Link}
    {last last' : Option Block} :
    (Stmt.ofLinks first links last == Stmt.ofLinks first' links' last') = true ↔
      List.Forall₂ (Link.Alike Binary64.Equal) (first :: links) (first' :: links') ∧
        Option.Rel (List.Forall₂ (Stmt.Alike Binary64.Equal)) last last' := by
  rw [beq_iff_alike, List.forall₂_cons, and_assoc, ← ElseBranch.alike_ofLinks_iff]
  constructor
  · rintro ⟨⟩
    next hcondition hbody hlinks => exact ⟨⟨hcondition, hbody⟩, hlinks⟩
  · rintro ⟨hfirst, hlinks⟩
    exact .conditional hfirst.condition hfirst.body hlinks

end Stmt

theorem Definition.beq_iff_alike {d e : Definition} :
    (d == e) = true ↔ d.Alike Binary64.Equal e := by
  change (decide (d.prototype = e.prototype) && d.body == e.body) = true ↔ _
  rw [Bool.and_eq_true, decide_eq_true_iff, Stmt.blocks_beq_iff_alike]
  exact ⟨fun h ↦ ⟨h.1, h.2⟩, fun h ↦ ⟨h.prototype, h.body⟩⟩

theorem list_beq_iff_forall₂ {α : Type} [BEq α] {R : α → α → Prop}
    (hR : ∀ a b, (a == b) = true ↔ R a b) (as bs : List α) :
    (as == bs) = true ↔ List.Forall₂ R as bs := by
  induction as generalizing bs with
  | nil => cases bs <;> simp
  | cons a as ih => cases bs <;> simp [hR, ih]

theorem SourceUnit.beq_iff_alike {u v : SourceUnit} :
    (u == v) = true ↔ u.Alike Binary64.Equal v := by
  change (u.name == v.name && decide (u.prototypes = v.prototypes) &&
    u.definitions == v.definitions) = true ↔ _
  rw [Bool.and_eq_true, Bool.and_eq_true, beq_iff_eq, decide_eq_true_iff,
    list_beq_iff_forall₂ fun _ _ ↦ Definition.beq_iff_alike]
  exact ⟨fun h ↦ ⟨h.1.1, h.1.2, h.2⟩, fun h ↦ ⟨⟨h.name, h.prototypes⟩, h.definitions⟩⟩

namespace Node

theorem alike_of_beq {node other : Node} (h : (node == other) = true) :
    node.Alike Binary64.Equal other := by
  cases node with
  | expr x =>
    cases other with
    | expr y => exact .expr (x.alike_of_beq y h)
    | _ => cases h
  | stmt s =>
    cases other with
    | stmt t => exact .stmt (Stmt.beq_iff_alike.mp h)
    | _ => cases h
  | block body =>
    cases other with
    | block body' => exact .block (Stmt.blocks_beq_iff_alike.mp h)
    | _ => cases h
  | prototype p =>
    cases other with
    | prototype q =>
      obtain rfl : p = q := of_decide_eq_true h
      exact .prototype p
    | _ => cases h
  | definition d =>
    cases other with
    | definition e => exact .definition (Definition.beq_iff_alike.mp h)
    | _ => cases h
  | unit u =>
    cases other with
    | unit v => exact .unit (SourceUnit.beq_iff_alike.mp h)
    | _ => cases h

theorem Alike.beq_eq {node other : Node} (h : node.Alike Binary64.Equal other) :
    (node == other) = true := by
  cases h with
  | expr h => exact h.beq_eq
  | stmt h => exact h.beq_eq
  | block h => exact Stmt.blocks_beq_iff_alike.mpr h
  | prototype p => exact decide_eq_true rfl
  | definition h => exact Definition.beq_iff_alike.mpr h
  | unit h => exact SourceUnit.beq_iff_alike.mpr h

/-- Two nodes are equal exactly if they have the same structure and equal numbers at the same
places, whatever the length of the chains in them.  So equality is symmetric and transitive, but a
node equals itself only if it holds no NaN. -/
theorem equal_iff_same_structure :
    (∀ node other : Node, (node == other) = true ↔ node.Alike Binary64.Equal other) ∧
    (∀ (first first' : Link) (links links' : List Link) (last last' : Option Block),
      (Stmt.ofLinks first links last == Stmt.ofLinks first' links' last') = true ↔
        List.Forall₂ (Link.Alike Binary64.Equal) (first :: links) (first' :: links') ∧
          Option.Rel (List.Forall₂ (Stmt.Alike Binary64.Equal)) last last') ∧
    (∀ node other : Node, (node == other) = (other == node)) ∧
    (∀ node other third : Node, node == other → other == third → node == third) ∧
    (∀ node : Node, (node == node) = true ↔ ∀ value ∈ node.numbers, value.isNaN = false) ∧
    ∀ node other : Node, (node != other) = !(node == other) := by
  have hiff (node other : Node) : (node == other) = true ↔ node.Alike Binary64.Equal other :=
    ⟨alike_of_beq, Alike.beq_eq⟩
  refine ⟨hiff, fun _ _ _ _ _ _ ↦ Stmt.beq_ofLinks_iff, fun node other ↦ ?_,
    fun node other third h h' ↦ ?_, beq_self_iff, fun _ _ ↦ rfl⟩
  · rw [Bool.eq_iff_iff, hiff, hiff]
    exact ⟨Alike.symm fun _ _ ↦ Binary64.Equal.symm, Alike.symm fun _ _ ↦ Binary64.Equal.symm⟩
  · rw [hiff] at h h' ⊢
    exact h.trans (fun _ _ _ ↦ Binary64.Equal.trans) h'

end Node

end ExprLang
