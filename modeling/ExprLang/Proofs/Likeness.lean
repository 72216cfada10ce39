import ExprLang.Tree
import Mathlib.Data.List.Forall2

/-!
# Trees That Are Alike

Two trees are alike when they have the same shape, the same operators and the same names, and the
numbers at the same places are related.  What counts as the same number is left open; if only equal
numbers do, then only equal trees are alike.
-/

namespace ExprLang

variable (same : Binary64 → Binary64 → Prop)

inductive Expr.Alike : Expr → Expr → Prop
  | number {value value' : Binary64} : same value value' → Alike (.number value) (.number value')
  | var (name : String) : Alike (.var name) (.var name)
  | binary (operator : BinaryOperator) {left left' right right' : Expr} : Alike left left' →
      Alike right right' → Alike (.binary operator left right) (.binary operator left' right')
  | call (callee : String) {arguments arguments' : List Expr} :
      List.Forall₂ Alike arguments arguments' →
      Alike (.call callee arguments) (.call callee arguments')

mutual

inductive Stmt.Alike : Stmt → Stmt → Prop
  | expression {value value' : Expr} : value.Alike same value' →
      Stmt.Alike (.expression value) (.expression value')
  | compound {body body' : Block} : List.Forall₂ Stmt.Alike body body' →
      Stmt.Alike (.compound body) (.compound body')
  | assignment (targets : List String) {value value' : Expr} : value.Alike same value' →
      Stmt.Alike (.assignment targets value) (.assignment targets value')
  | result {value value' : Expr} : value.Alike same value' →
      Stmt.Alike (.result value) (.result value')
  | conditional {condition condition' : Expr} {body body' : Block}
      {otherwise otherwise' : ElseBranch} : condition.Alike same condition' →
      List.Forall₂ Stmt.Alike body body' → ElseBranch.Alike otherwise otherwise' →
      Stmt.Alike (.conditional condition body otherwise) (.conditional condition' body' otherwise')
  | loop (index : String) {initial initial' condition condition' step step' : Expr}
      {body body' : Block} : initial.Alike same initial' → condition.Alike same condition' →
      step.Alike same step' → List.Forall₂ Stmt.Alike body body' →
      Stmt.Alike (.loop index initial condition step body)
        (.loop index initial' condition' step' body')

inductive ElseBranch.Alike : ElseBranch → ElseBranch → Prop
  | absent : ElseBranch.Alike .absent .absent
  | elseIf {condition condition' : Expr} {body body' : Block} {otherwise otherwise' : ElseBranch} :
      condition.Alike same condition' → List.Forall₂ Stmt.Alike body body' →
      ElseBranch.Alike otherwise otherwise' →
      ElseBranch.Alike (.elseIf condition body otherwise) (.elseIf condition' body' otherwise')
  | block {body body' : Block} : List.Forall₂ Stmt.Alike body body' →
      ElseBranch.Alike (.block body) (.block body')

end

structure Definition.Alike (definition other : Definition) : Prop where
  prototype : definition.prototype = other.prototype
  body : List.Forall₂ (Stmt.Alike same) definition.body other.body

structure SourceUnit.Alike (unit other : SourceUnit) : Prop where
  name : unit.name = other.name
  prototypes : unit.prototypes = other.prototypes
  definitions : List.Forall₂ (Definition.Alike same) unit.definitions other.definitions

/-- Nodes that are alike are of the same type. -/
inductive Node.Alike : Node → Node → Prop
  | expr {x y : Expr} : x.Alike same y → Alike (.expr x) (.expr y)
  | stmt {s t : Stmt} : s.Alike same t → Alike (.stmt s) (.stmt t)
  | block {body body' : Block} : List.Forall₂ (Stmt.Alike same) body body' →
      Alike (.block body) (.block body')
  | prototype (p : Prototype) : Alike (.prototype p) (.prototype p)
  | definition {d e : Definition} : d.Alike same e → Alike (.definition d) (.definition e)
  | unit {u v : SourceUnit} : u.Alike same v → Alike (.unit u) (.unit v)

/-- Both nodes are expressions, both are statements, and so on. -/
inductive Node.SameType : Node → Node → Prop
  | expr (x y : Expr) : SameType (.expr x) (.expr y)
  | stmt (s t : Stmt) : SameType (.stmt s) (.stmt t)
  | block (body body' : Block) : SameType (.block body) (.block body')
  | prototype (p q : Prototype) : SameType (.prototype p) (.prototype q)
  | definition (d e : Definition) : SameType (.definition d) (.definition e)
  | unit (u v : SourceUnit) : SameType (.unit u) (.unit v)

variable {same : Binary64 → Binary64 → Prop}

namespace Expr

mutual

theorem Alike.refl (hsame : ∀ value, same value value) : (x : Expr) → x.Alike same x
  | number value => .number (hsame value)
  | var name => .var name
  | binary operator left right => .binary operator (Alike.refl hsame left) (Alike.refl hsame right)
  | call callee arguments => .call callee (alikeAll_refl hsame arguments)

theorem alikeAll_refl (hsame : ∀ value, same value value) :
    (xs : List Expr) → List.Forall₂ (Alike same) xs xs
  | [] => .nil
  | x :: xs => .cons (Alike.refl hsame x) (alikeAll_refl hsame xs)

end

mutual

theorem Alike.eq : {x y : Expr} → x.Alike (· = ·) y → x = y
  | _, _, .number h => by rw [h]
  | _, _, .var name => rfl
  | _, _, .binary operator hleft hright => by rw [hleft.eq, hright.eq]
  | _, _, .call callee harguments => by rw [eq_of_alikeAll harguments]

theorem eq_of_alikeAll : {xs ys : List Expr} → List.Forall₂ (Alike (· = ·)) xs ys → xs = ys
  | _, _, .nil => rfl
  | _, _, .cons hfirst hrest => by rw [hfirst.eq, eq_of_alikeAll hrest]

end

end Expr

namespace Stmt

mutual

theorem Alike.refl (hsame : ∀ value, same value value) : (s : Stmt) → s.Alike same s
  | expression value => .expression (.refl hsame value)
  | compound body => .compound (alikeAll_refl hsame body)
  | assignment targets value => .assignment targets (.refl hsame value)
  | result value => .result (.refl hsame value)
  | conditional condition body otherwise =>
    .conditional (.refl hsame condition) (alikeAll_refl hsame body) (alikeElse_refl hsame otherwise)
  | loop index initial condition step body =>
    .loop index (.refl hsame initial) (.refl hsame condition) (.refl hsame step)
      (alikeAll_refl hsame body)

theorem alikeAll_refl (hsame : ∀ value, same value value) :
    (body : Block) → List.Forall₂ (Alike same) body body
  | [] => .nil
  | s :: body => .cons (Alike.refl hsame s) (alikeAll_refl hsame body)

theorem alikeElse_refl (hsame : ∀ value, same value value) :
    (branch : ElseBranch) → branch.Alike same branch
  | .absent => .absent
  | .elseIf condition body otherwise =>
    .elseIf (.refl hsame condition) (alikeAll_refl hsame body) (alikeElse_refl hsame otherwise)
  | .block body => .block (alikeAll_refl hsame body)

end

mutual

theorem Alike.eq : {s t : Stmt} → s.Alike (· = ·) t → s = t
  | _, _, .expression hvalue => by rw [hvalue.eq]
  | _, _, .compound hbody => by rw [eq_of_alikeAll hbody]
  | _, _, .assignment targets hvalue => by rw [hvalue.eq]
  | _, _, .result hvalue => by rw [hvalue.eq]
  | _, _, .conditional hcondition hbody hotherwise => by
    rw [hcondition.eq, eq_of_alikeAll hbody, eq_of_alikeElse hotherwise]
  | _, _, .loop index hinitial hcondition hstep hbody => by
    rw [hinitial.eq, hcondition.eq, hstep.eq, eq_of_alikeAll hbody]

theorem eq_of_alikeAll : {body body' : Block} → List.Forall₂ (Alike (· = ·)) body body' →
    body = body'
  | _, _, .nil => rfl
  | _, _, .cons hfirst hrest => by rw [hfirst.eq, eq_of_alikeAll hrest]

theorem eq_of_alikeElse : {branch branch' : ElseBranch} → branch.Alike (· = ·) branch' →
    branch = branch'
  | _, _, .absent => rfl
  | _, _, .elseIf hcondition hbody hotherwise => by
    rw [hcondition.eq, eq_of_alikeAll hbody, eq_of_alikeElse hotherwise]
  | _, _, .block hbody => by rw [eq_of_alikeAll hbody]

end

end Stmt

theorem Definition.alike_eq_iff {d e : Definition} : d.Alike (· = ·) e ↔ d = e := by
  constructor
  · rintro ⟨hprototype, hbody⟩
    cases d
    cases e
    exact congrArg₂ Definition.mk hprototype (Stmt.eq_of_alikeAll hbody)
  · rintro rfl
    exact ⟨rfl, Stmt.alikeAll_refl (fun _ ↦ rfl) d.body⟩

theorem SourceUnit.alike_eq_iff {u v : SourceUnit} : u.Alike (· = ·) v ↔ u = v := by
  have hdefinitions : Definition.Alike (· = ·) = Eq := by
    funext d e
    exact propext Definition.alike_eq_iff
  constructor
  · rintro ⟨hname, hprototypes, hall⟩
    rw [hdefinitions, List.forall₂_eq_eq_eq] at hall
    cases u
    cases v
    simpa using ⟨hname, hprototypes, hall⟩
  · rintro rfl
    refine ⟨rfl, rfl, ?_⟩
    rw [hdefinitions, List.forall₂_eq_eq_eq]

/-- Trees whose numbers are equal are alike only if they are equal. -/
theorem Node.alike_eq_iff {node other : Node} : node.Alike (· = ·) other ↔ node = other := by
  constructor
  · intro h
    cases h with
    | expr h => rw [h.eq]
    | stmt h => rw [h.eq]
    | block h => rw [Stmt.eq_of_alikeAll h]
    | prototype => rfl
    | definition h => rw [Definition.alike_eq_iff.mp h]
    | unit h => rw [SourceUnit.alike_eq_iff.mp h]
  · rintro rfl
    cases node with
    | expr x => exact .expr (.refl (fun _ ↦ rfl) x)
    | stmt s => exact .stmt (.refl (fun _ ↦ rfl) s)
    | block body => exact .block (Stmt.alikeAll_refl (fun _ ↦ rfl) body)
    | prototype p => exact .prototype p
    | definition d => exact .definition (Definition.alike_eq_iff.mpr rfl)
    | unit u => exact .unit (SourceUnit.alike_eq_iff.mpr rfl)

namespace Expr

mutual

theorem Alike.symm (hsame : ∀ u v, same u v → same v u) :
    {x y : Expr} → x.Alike same y → y.Alike same x
  | _, _, .number h => .number (hsame _ _ h)
  | _, _, .var name => .var name
  | _, _, .binary operator hleft hright =>
    .binary operator (hleft.symm hsame) (hright.symm hsame)
  | _, _, .call callee harguments => .call callee (alikeAll_symm hsame harguments)

theorem alikeAll_symm (hsame : ∀ u v, same u v → same v u) :
    {xs ys : List Expr} → List.Forall₂ (Alike same) xs ys → List.Forall₂ (Alike same) ys xs
  | _, _, .nil => .nil
  | _, _, .cons hfirst hrest => .cons (hfirst.symm hsame) (alikeAll_symm hsame hrest)

end

mutual

theorem Alike.trans (hsame : ∀ u v w, same u v → same v w → same u w) :
    {x y z : Expr} → x.Alike same y → y.Alike same z → x.Alike same z
  | _, _, _, .number h, .number h' => .number (hsame _ _ _ h h')
  | _, _, _, .var name, .var _ => .var name
  | _, _, _, .binary operator hleft hright, .binary _ hleft' hright' =>
    .binary operator (hleft.trans hsame hleft') (hright.trans hsame hright')
  | _, _, _, .call callee h, .call _ h' => .call callee (alikeAll_trans hsame h h')

theorem alikeAll_trans (hsame : ∀ u v w, same u v → same v w → same u w) :
    {xs ys zs : List Expr} → List.Forall₂ (Alike same) xs ys →
      List.Forall₂ (Alike same) ys zs → List.Forall₂ (Alike same) xs zs
  | _, _, _, .nil, .nil => .nil
  | _, _, _, .cons hfirst hrest, .cons hfirst' hrest' =>
    .cons (hfirst.trans hsame hfirst') (alikeAll_trans hsame hrest hrest')

end

end Expr

namespace Stmt

mutual

theorem Alike.symm (hsame : ∀ u v, same u v → same v u) :
    {s t : Stmt} → s.Alike same t → t.Alike same s
  | _, _, .expression hvalue => .expression (hvalue.symm hsame)
  | _, _, .compound hbody => .compound (alikeAll_symm hsame hbody)
  | _, _, .assignment targets hvalue => .assignment targets (hvalue.symm hsame)
  | _, _, .result hvalue => .result (hvalue.symm hsame)
  | _, _, .conditional hcondition hbody hotherwise =>
    .conditional (hcondition.symm hsame) (alikeAll_symm hsame hbody)
      (alikeElse_symm hsame hotherwise)
  | _, _, .loop index hinitial hcondition hstep hbody =>
    .loop index (hinitial.symm hsame) (hcondition.symm hsame) (hstep.symm hsame)
      (alikeAll_symm hsame hbody)

theorem alikeAll_symm (hsame : ∀ u v, same u v → same v u) :
    {body body' : Block} → List.Forall₂ (Alike same) body body' →
      List.Forall₂ (Alike same) body' body
  | _, _, .nil => .nil
  | _, _, .cons hfirst hrest => .cons (hfirst.symm hsame) (alikeAll_symm hsame hrest)

theorem alikeElse_symm (hsame : ∀ u v, same u v → same v u) :
    {branch branch' : ElseBranch} → branch.Alike same branch' → branch'.Alike same branch
  | _, _, .absent => .absent
  | _, _, .elseIf hcondition hbody hotherwise =>
    .elseIf (hcondition.symm hsame) (alikeAll_symm hsame hbody) (alikeElse_symm hsame hotherwise)
  | _, _, .block hbody => .block (alikeAll_symm hsame hbody)

end

mutual

theorem Alike.trans (hsame : ∀ u v w, same u v → same v w → same u w) :
    {s t r : Stmt} → s.Alike same t → t.Alike same r → s.Alike same r
  | _, _, _, .expression h, .expression h' => .expression (h.trans hsame h')
  | _, _, _, .compound h, .compound h' => .compound (alikeAll_trans hsame h h')
  | _, _, _, .assignment targets h, .assignment _ h' => .assignment targets (h.trans hsame h')
  | _, _, _, .result h, .result h' => .result (h.trans hsame h')
  | _, _, _, .conditional hcondition hbody hotherwise,
      .conditional hcondition' hbody' hotherwise' =>
    .conditional (hcondition.trans hsame hcondition') (alikeAll_trans hsame hbody hbody')
      (alikeElse_trans hsame hotherwise hotherwise')
  | _, _, _, .loop index hinitial hcondition hstep hbody,
      .loop _ hinitial' hcondition' hstep' hbody' =>
    .loop index (hinitial.trans hsame hinitial') (hcondition.trans hsame hcondition')
      (hstep.trans hsame hstep') (alikeAll_trans hsame hbody hbody')

theorem alikeAll_trans (hsame : ∀ u v w, same u v → same v w → same u w) :
    {body body' body'' : Block} → List.Forall₂ (Alike same) body body' →
      List.Forall₂ (Alike same) body' body'' → List.Forall₂ (Alike same) body body''
  | _, _, _, .nil, .nil => .nil
  | _, _, _, .cons hfirst hrest, .cons hfirst' hrest' =>
    .cons (hfirst.trans hsame hfirst') (alikeAll_trans hsame hrest hrest')

theorem alikeElse_trans (hsame : ∀ u v w, same u v → same v w → same u w) :
    {branch branch' branch'' : ElseBranch} → branch.Alike same branch' →
      branch'.Alike same branch'' → branch.Alike same branch''
  | _, _, _, .absent, .absent => .absent
  | _, _, _, .elseIf hcondition hbody hotherwise, .elseIf hcondition' hbody' hotherwise' =>
    .elseIf (hcondition.trans hsame hcondition') (alikeAll_trans hsame hbody hbody')
      (alikeElse_trans hsame hotherwise hotherwise')
  | _, _, _, .block h, .block h' => .block (alikeAll_trans hsame h h')

end

end Stmt

theorem Definition.Alike.symm (hsame : ∀ u v, same u v → same v u) {d e : Definition}
    (h : d.Alike same e) : e.Alike same d :=
  ⟨h.prototype.symm, Stmt.alikeAll_symm hsame h.body⟩

theorem Definition.Alike.trans (hsame : ∀ u v w, same u v → same v w → same u w)
    {d e f : Definition} (h : d.Alike same e) (h' : e.Alike same f) : d.Alike same f :=
  ⟨h.prototype.trans h'.prototype, Stmt.alikeAll_trans hsame h.body h'.body⟩

theorem forall₂_trans {α : Type} {R : α → α → Prop} (hR : ∀ a b c, R a b → R b c → R a c) :
    {as bs cs : List α} → List.Forall₂ R as bs → List.Forall₂ R bs cs → List.Forall₂ R as cs
  | _, _, _, .nil, .nil => .nil
  | _, _, _, .cons h hrest, .cons h' hrest' => .cons (hR _ _ _ h h') (forall₂_trans hR hrest hrest')

theorem SourceUnit.Alike.symm (hsame : ∀ u v, same u v → same v u) {u v : SourceUnit}
    (h : u.Alike same v) : v.Alike same u :=
  ⟨h.name.symm, h.prototypes.symm, (h.definitions.imp fun _ _ h ↦ h.symm hsame).flip⟩

theorem SourceUnit.Alike.trans (hsame : ∀ u v w, same u v → same v w → same u w)
    {u v w : SourceUnit} (h : u.Alike same v) (h' : v.Alike same w) : u.Alike same w :=
  ⟨h.name.trans h'.name, h.prototypes.trans h'.prototypes,
    forall₂_trans (fun _ _ _ h h' ↦ h.trans hsame h') h.definitions h'.definitions⟩

namespace Node

variable {node other third : Node}

theorem Alike.symm (hsame : ∀ u v, same u v → same v u) (h : node.Alike same other) :
    other.Alike same node := by
  cases h with
  | expr h => exact .expr (h.symm hsame)
  | stmt h => exact .stmt (h.symm hsame)
  | block h => exact .block (Stmt.alikeAll_symm hsame h)
  | prototype p => exact .prototype p
  | definition h => exact .definition (h.symm hsame)
  | unit h => exact .unit (h.symm hsame)

theorem Alike.trans (hsame : ∀ u v w, same u v → same v w → same u w)
    (h : node.Alike same other) (h' : other.Alike same third) : node.Alike same third := by
  cases h with
  | expr h =>
    cases h' with
    | expr h' => exact .expr (h.trans hsame h')
  | stmt h =>
    cases h' with
    | stmt h' => exact .stmt (h.trans hsame h')
  | block h =>
    cases h' with
    | block h' => exact .block (Stmt.alikeAll_trans hsame h h')
  | prototype p => exact h'
  | definition h =>
    cases h' with
    | definition h' => exact .definition (h.trans hsame h')
  | unit h =>
    cases h' with
    | unit h' => exact .unit (h.trans hsame h')

end Node

structure Link.Alike (same : Binary64 → Binary64 → Prop) (link other : Link) : Prop where
  condition : link.condition.Alike same other.condition
  body : List.Forall₂ (Stmt.Alike same) link.body other.body

/-- Chains are alike when they have the same number of links, alike one by one, and end in the same
way. -/
theorem ElseBranch.alike_ofLinks_iff {links links' : List Link} {last last' : Option Block} :
    (ofLinks links last).Alike same (ofLinks links' last') ↔
      List.Forall₂ (Link.Alike same) links links' ∧
        Option.Rel (List.Forall₂ (Stmt.Alike same)) last last' := by
  induction links generalizing links' with
  | nil =>
    cases links' with
    | nil =>
      constructor
      · intro h
        cases last <;> cases last' <;> cases h
        · exact ⟨.nil, .none⟩
        · next hbody => exact ⟨.nil, .some hbody⟩
      · rintro ⟨-, h⟩
        cases h with
        | none => exact .absent
        | some hbody => exact .block hbody
    | cons link' links' =>
      refine iff_of_false ?_ fun h ↦ nomatch h.1
      intro h
      cases last <;> cases h
  | cons link links ih =>
    cases links' with
    | nil =>
      refine iff_of_false ?_ fun h ↦ nomatch h.1
      intro h
      cases last' <;> cases h
    | cons link' links' =>
      constructor
      · rintro ⟨⟩
        next hcondition hbody hotherwise =>
        obtain ⟨hlinks, hlast⟩ := ih.mp hotherwise
        exact ⟨.cons ⟨hcondition, hbody⟩ hlinks, hlast⟩
      · rintro ⟨hlinks, hlast⟩
        obtain ⟨hlink, hlinks⟩ := List.forall₂_cons.mp hlinks
        exact .elseIf hlink.condition hlink.body (ih.mpr ⟨hlinks, hlast⟩)

end ExprLang
