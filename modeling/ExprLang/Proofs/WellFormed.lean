import ExprLang.Proofs.Equality
import ExprLang.Proofs.Acceptance

/-!
# Well-Formed Trees

Not every tree is one of the parser's.  The names in those are words that are not reserved, the
numbers are neither negative nor NaNs, no compound stands as a statement and every assignment has a
target.
-/

namespace ExprLang

inductive Expr.WellFormed : Expr → Prop
  | number {value : Binary64} : value.negative = false → value.isNaN = false →
      WellFormed (.number value)
  | var {name : String} : IsName name → WellFormed (.var name)
  | binary {operator : BinaryOperator} {left right : Expr} : WellFormed left → WellFormed right →
      WellFormed (.binary operator left right)
  | call {callee : String} {arguments : List Expr} : IsName callee →
      (∀ argument ∈ arguments, WellFormed argument) → WellFormed (.call callee arguments)

mutual

/-- A compound is no statement of its own. -/
inductive Stmt.WellFormed : Stmt → Prop
  | expression {value : Expr} : value.WellFormed → Stmt.WellFormed (.expression value)
  | assignment {targets : List String} {value : Expr} : targets ≠ [] →
      (∀ target ∈ targets, IsName target) → value.WellFormed →
      Stmt.WellFormed (.assignment targets value)
  | result {value : Expr} : value.WellFormed → Stmt.WellFormed (.result value)
  | conditional {condition : Expr} {body : Block} {otherwise : ElseBranch} :
      condition.WellFormed → (∀ stmt ∈ body, Stmt.WellFormed stmt) →
      ElseBranch.WellFormed otherwise → Stmt.WellFormed (.conditional condition body otherwise)
  | loop {index : String} {initial condition step : Expr} {body : Block} : IsName index →
      initial.WellFormed → condition.WellFormed → step.WellFormed →
      (∀ stmt ∈ body, Stmt.WellFormed stmt) →
      Stmt.WellFormed (.loop index initial condition step body)

inductive ElseBranch.WellFormed : ElseBranch → Prop
  | absent : ElseBranch.WellFormed .absent
  | elseIf {condition : Expr} {body : Block} {otherwise : ElseBranch} : condition.WellFormed →
      (∀ stmt ∈ body, Stmt.WellFormed stmt) → ElseBranch.WellFormed otherwise →
      ElseBranch.WellFormed (.elseIf condition body otherwise)
  | block {body : Block} : (∀ stmt ∈ body, Stmt.WellFormed stmt) →
      ElseBranch.WellFormed (.block body)

end

def Block.WellFormed (body : Block) : Prop := ∀ stmt ∈ body, stmt.WellFormed

/-- The parts that an item brings into the unit.  A run has statements but no name of its own. -/
def Item.WellFormed : Item → Prop
  | .separator => True
  | .declaration prototype => prototype.IsNamed
  | .definition function => function.prototype.IsNamed ∧ Block.WellFormed function.body
  | .run body => body ≠ [] ∧ Block.WellFormed body

/-- The trees of a phrase are well-formed. -/
def Phrase.WellFormed : Phrase → Prop
  | operand _ expr => expr.WellFormed
  | expression expr => expr.WellFormed
  | arguments args => ∀ arg ∈ args, arg.WellFormed
  | statement stmt => stmt.WellFormed
  | statements body => Block.WellFormed body
  | block body => Block.WellFormed body
  | otherwise branch => branch.WellFormed

/-- The grammar derives well-formed trees only. -/
theorem Derives.wellFormed {depth : Nat} {phrase : Phrase} {word : List Symbol}
    (h : Derives depth phrase word) : phrase.WellFormed := by
  induction h with
  | number _ =>
    exact .number (Binary64.ofLiteral_nonnegative _) (Binary64.ofLiteral_not_isNaN _)
  | var hname => exact .var hname
  | emptyCall hname => exact .call hname (by simp)
  | call hname _ ih => exact .call hname ih
  | parenthesised _ ih => exact ih
  | tighter _ ih => exact ih
  | binary _ _ ihleft ihright => exact .binary ihleft ihright
  | expression _ ih => exact ih
  | argument _ ih => exact List.forall_mem_singleton.mpr ih
  | arguments _ _ ih ihargs => exact List.forall_mem_cons.mpr ⟨ih, ihargs⟩
  | assignment hne hnames _ ih => exact .assignment hne hnames ih
  | result _ ih => exact .result ih
  | conditional _ _ _ ih ihbody ihbranch => exact .conditional ih ihbody ihbranch
  | loop hindex _ _ _ _ ih₁ ih₂ ih₃ ih₄ => exact .loop hindex ih₁ ih₂ ih₃ ih₄
  | expressionStatement _ ih => exact .expression ih
  | absent => exact .absent
  | elseIf _ _ _ ih ihbody ihbranch => exact .elseIf ih ihbody ihbranch
  | elseBlock _ ih => exact .block ih
  | noStatement => exact List.forall_mem_nil _
  | statements _ _ ih ihbody => exact List.forall_mem_cons.mpr ⟨ih, ihbody⟩
  | block _ ih => exact ih

theorem SpellsItem.wellFormed {item : Item} {word : List Symbol} (h : SpellsItem item word) :
    item.WellFormed := by
  cases item with
  | separator => trivial
  | declaration prototype => exact h.1
  | definition function =>
    obtain ⟨hnamed, _, ⟨_, hbody⟩, -⟩ := h
    exact ⟨hnamed, hbody.wellFormed⟩
  | run body =>
    obtain ⟨hne, _, hbody⟩ := h
    exact ⟨hne, hbody.wellFormed⟩

theorem Parser.itemsUpTo_wellFormed (n : Nat) {parser : Parser} (h : parser.Ready) :
    ∀ item ∈ (itemsUpTo n parser).items, item.WellFormed := by
  induction n generalizing parser with
  | zero => exact List.forall_mem_nil _
  | succ n ih =>
    rw [itemsUpTo]
    cases hitem : item parser with
    | error halt parser' => exact List.forall_mem_nil _
    | ok result parser' =>
      cases result with
      | none => exact List.forall_mem_nil _
      | some first =>
        obtain ⟨m, -, hspells⟩ := (Reads.item h (Nat.zero_le _)).exists_of_ok hitem
        have hready := (Reads.progresses_item parser first parser' h hitem).1
        exact List.forall_mem_cons.mpr ⟨SpellsItem.wellFormed hspells, ih hready⟩

/-- The items of a parse are well-formed, and so are those before a failure. -/
theorem parse_items_wellFormed (source : String) (options : Options) :
    ∀ item ∈ (parse source options).items, item.WellFormed := by
  by_cases hmalformed : (Parser.start source options).current.kind = .malformedNumber
  · rw [parse, Parser.ofSource_eq, if_pos hmalformed]
    exact List.forall_mem_nil _
  · rw [parse_eq_ofReading hmalformed]
    exact Parser.itemsUpTo_wellFormed _ (Parser.ready_start source options)

theorem parse_eq_ofItems {source : String} {options : Options} {unit : SourceUnit}
    (h : (parse source options).result = .ok unit) :
    unit = .ofItems options (parse source options).items := by
  obtain ⟨hsound, items, parser', hitems, rfl⟩ := exists_items_of_parse h
  rw [parse_of_many hsound hitems]

theorem Expr.WellFormed.not_isNaN {expr : Expr} (h : expr.WellFormed) :
    ∀ value ∈ expr.numbers, value.isNaN = false := by
  induction h with
  | number _ hnumber => exact List.forall_mem_singleton.mpr hnumber
  | var _ => exact List.forall_mem_nil _
  | binary _ _ ihleft ihright => exact List.forall_mem_append.mpr ⟨ihleft, ihright⟩
  | call _ _ ih => rwa [numbers, numbersOfAll_eq, List.forall_mem_flatMap]

mutual

theorem Stmt.WellFormed.not_isNaN : {stmt : Stmt} → stmt.WellFormed →
    ∀ value ∈ stmt.numbers, value.isNaN = false
  | _, .expression hvalue => hvalue.not_isNaN
  | _, .assignment _ _ hvalue => hvalue.not_isNaN
  | _, .result hvalue => hvalue.not_isNaN
  | _, .conditional hcondition hbody hbranch => by
    simp only [Stmt.numbers, Stmt.numbersOfAll_eq, List.forall_mem_append, List.forall_mem_flatMap]
    exact ⟨hcondition.not_isNaN, fun stmt hstmt ↦ (hbody stmt hstmt).not_isNaN, hbranch.not_isNaN⟩
  | _, .loop _ hinitial hcondition hstep hbody => by
    simp only [Stmt.numbers, Stmt.numbersOfAll_eq, List.forall_mem_append, List.forall_mem_flatMap]
    exact ⟨hinitial.not_isNaN, hcondition.not_isNaN, hstep.not_isNaN,
      fun stmt hstmt ↦ (hbody stmt hstmt).not_isNaN⟩

theorem ElseBranch.WellFormed.not_isNaN : {branch : ElseBranch} → branch.WellFormed →
    ∀ value ∈ Stmt.numbersOfElse branch, value.isNaN = false
  | _, .absent => List.forall_mem_nil _
  | _, .elseIf hcondition hbody hbranch => by
    simp only [Stmt.numbersOfElse, Stmt.numbersOfAll_eq, List.forall_mem_append,
      List.forall_mem_flatMap]
    exact ⟨hcondition.not_isNaN, fun stmt hstmt ↦ (hbody stmt hstmt).not_isNaN, hbranch.not_isNaN⟩
  | _, .block hbody => by
    rw [Stmt.numbersOfElse, Stmt.numbersOfAll_eq, List.forall_mem_flatMap]
    exact fun stmt hstmt ↦ (hbody stmt hstmt).not_isNaN

end

theorem Item.WellFormed.body {item : Item} (h : item.WellFormed) {options : Options}
    {function : Definition} (hfunction : item.definition? options = some function) :
    Block.WellFormed function.body := by
  cases item with
  | definition function' =>
    obtain rfl := Option.some.inj hfunction
    exact h.2
  | run body =>
    obtain rfl := Option.some.inj hfunction
    exact h.2
  | _ => cases hfunction

/-- A unit of well-formed items holds no NaN. -/
theorem SourceUnit.not_isNaN_of_wellFormed {items : List Item} (options : Options)
    (h : ∀ item ∈ items, item.WellFormed) :
    ∀ value ∈ (SourceUnit.ofItems options items).numbers, value.isNaN = false := by
  rw [numbers, List.forall_mem_flatMap]
  intro function hfunction
  obtain ⟨item, hitem, heq⟩ := List.mem_filterMap.mp hfunction
  rw [Stmt.numbersOfAll_eq, List.forall_mem_flatMap]
  exact fun stmt hstmt ↦ ((h item hitem).body heq stmt hstmt).not_isNaN

end ExprLang
