import ExprLang.Proofs.Mirroring
import ExprLang.Proofs.ReadingExpressions

/-!
# Expressions Side by Side

The steps for expressions mirror each other at twins.  The induction is on the levels of the first
parser; where they are used up, either both parsers halt or the second one has levels that the first
one has not.
-/

namespace ExprLang.Parser

variable {naming : String → String} {parser twin : Parser} {levels levels' : Nat}

/-- The levels left to two parsers in the same place: the same number, unless the second parser had
more from the start. -/
def Keeps (parser twin : Parser) (levels levels' : Nat) : Prop :=
  levels = levels' ∨ levels < levels' ∧ parser.room < twin.room

theorem Keeps.exists_of_succ (h : parser.Keeps twin (levels + 1) levels') :
    ∃ levels'', levels' = levels'' + 1 ∧ parser.Keeps twin levels levels'' := by
  unfold Keeps at h ⊢
  exact ⟨levels' - 1, by omega, by omega⟩

theorem Keeps.skip (h : parser.Keeps twin levels levels') (n : Nat) :
    (parser.skip n).Keeps (twin.skip n) levels levels' := by
  simpa [Keeps] using h

theorem Twins.operator?_eq (h : parser.Twins naming twin) : twin.operator? = parser.operator? := by
  rw [h.ready.operator?_eq, h.ready'.operator?_eq, h.kind_eq]

theorem Twins.find?_primaries (h : parser.Twins naming twin) :
    twin.tables.primaries.find? twin.current.kind =
      parser.tables.primaries.find? parser.current.kind := by
  rw [h.ready.tables, h.ready'.tables, h.kind_eq]

/-- From the twins on, expressions within the given numbers of levels mirror each other. -/
def MirrorsExpressions (naming : String → String) (parser twin : Parser) (levels levels' : Nat) :
    Prop :=
  ∀ n, (parser.skip n).Mirrors (twin.skip n) (Option.map (Expr.rename naming))
    (expressionWithin levels) (expressionWithin levels')

theorem MirrorsExpressions.skip (hinner : MirrorsExpressions naming parser twin levels levels')
    (n : Nat) : MirrorsExpressions naming (parser.skip n) (twin.skip n) levels levels' := by
  intro m
  rw [skip_skip, skip_skip]
  exact hinner (n + m)

namespace Mirrors

theorem tooDeep {α β : Type} {f : α → β} (h : parser.Keeps twin 0 levels') {step' : Step β}
    [Skips step'] (hstep : levels' = 0 → step' = Parser.tooDeep) :
    parser.Mirrors twin f Parser.tooDeep step' := by
  rcases h with hlevels | ⟨-, hroom⟩
  · rw [hstep hlevels.symm]
    exact .halt 0 .tooDeep rfl rfl
  · obtain ⟨n, hn⟩ := Skips.exists_skip_apply step' twin
    exact .short 0 n hroom rfl (by rw [hn, Nat.zero_add])

theorem afterCommas {α β : Type} {f : α → β} {item : Step α} {item' : Step β} [Skips item']
    (hprogresses : Progresses (afterComma item)) (hprogresses' : Progresses (afterComma item'))
    (h : parser.Twins naming twin)
    (hitem : ∀ n, (parser.skip n).Mirrors (twin.skip n) f item item') :
    parser.Mirrors twin (List.map f) (Parser.afterCommas item) (Parser.afterCommas item') := by
  refine many hprogresses hprogresses' h fun n ↦ get ?_
  refine ite (by rw [(h.skip n).isChar_eq]) (fun _ ↦ ?_) fun _ ↦ pure rfl
  refine (advance (h.skip n)).bind fun _ m _ _ ↦ map (f := f) ?_ fun _ ↦ rfl
  rw [skip_skip, skip_skip]
  exact hitem (n + m)

theorem requiredWith (hinner : MirrorsExpressions naming parser twin levels levels')
    (after : String) :
    parser.Mirrors twin (Expr.rename naming) (Parser.requiredWith (expressionWithin levels) after)
      (Parser.requiredWith (expressionWithin levels') after) :=
  bind_option (hinner 0) (fun _ ↦ missing after) fun _ _ ↦ pure rfl

theorem numberPrimary (h : parser.Twins naming twin) (hkind : parser.current.kind = .number) :
    parser.Mirrors twin (Expr.rename naming) Parser.numberPrimary Parser.numberPrimary :=
  get ((advance h).bind fun _ _ _ _ ↦ pure (by rw [h.number_eq hkind]; rfl))

theorem argumentsWith (h : parser.Twins naming twin)
    (hinner : MirrorsExpressions naming parser twin levels levels') :
    parser.Mirrors twin (List.map (Expr.rename naming))
      (Parser.argumentsWith (expressionWithin levels))
      (Parser.argumentsWith (expressionWithin levels')) := by
  refine bind_option (hinner 0) (fun n ↦ ?_) fun first n ↦ ?_
  · exact (expectChar (h.skip n) ')').bind fun _ _ _ _ ↦ pure rfl
  · have hothers := afterCommas (progresses_afterComma_required levels "','")
      (progresses_afterComma_required levels' "','") (h.skip n)
      fun m ↦ requiredWith ((hinner.skip n).skip m) "','"
    apply hothers.bind
    intro others m _ _
    exact (expectAs ((h.skip n).skip m) _ _).bind fun _ _ _ _ ↦ pure rfl

theorem nameWith (h : parser.Twins naming twin)
    (hinner : MirrorsExpressions naming parser twin levels levels')
    (hkind : parser.current.kind = .identifier) :
    parser.Mirrors twin (Expr.rename naming) (Parser.nameWith (expressionWithin levels))
      (Parser.nameWith (expressionWithin levels')) := by
  have hword := h.word_eq hkind
  refine get ((advance h).bind fun _ n _ _ ↦ get ?_)
  refine ite (by rw [(h.skip n).isChar_eq]) (fun _ ↦ ?_) fun _ ↦ pure (by rw [hword]; rfl)
  apply (advance (h.skip n)).bind
  intro _ m _ _
  apply (argumentsWith ((h.skip n).skip m) ((hinner.skip n).skip m)).bind
  intro args _ _ _
  exact pure (by rw [hword, Expr.rename, Expr.renameAll_eq])

theorem parenthesisedWith (h : parser.Twins naming twin)
    (hinner : MirrorsExpressions naming parser twin levels levels') :
    parser.Mirrors twin (Expr.rename naming) (Parser.parenthesisedWith (expressionWithin levels))
      (Parser.parenthesisedWith (expressionWithin levels')) := by
  apply (advance h).bind
  intro _ n _ _
  exact (requiredWith (hinner.skip n) _).bind_closed (h.skip n) ')' fun _ _ ↦ pure rfl

theorem formWith (h : parser.Twins naming twin)
    (hinner : MirrorsExpressions naming parser twin levels levels') {form : PrimaryForm}
    (hform : Tables.default.primaries.find? parser.current.kind = some form) :
    parser.Mirrors twin (Expr.rename naming) (Parser.formWith (expressionWithin levels) form)
      (Parser.formWith (expressionWithin levels') form) := by
  cases form with
  | number => exact numberPrimary h (Tables.kind_of_number hform)
  | name => exact nameWith h hinner (Tables.kind_of_name hform)
  | parenthesised => exact parenthesisedWith h hinner

theorem primaryWith (h : parser.Twins naming twin)
    (hinner : MirrorsExpressions naming parser twin levels levels') :
    parser.Mirrors twin (Option.map (Expr.rename naming))
      (Parser.primaryWith (expressionWithin levels))
      (Parser.primaryWith (expressionWithin levels')) := by
  apply get
  rw [h.find?_primaries, h.ready.tables]
  cases hform : Tables.default.primaries.find? parser.current.kind with
  | some form => exact (formWith h hinner hform).map fun _ ↦ rfl
  | none => exact ite (by rw [h.kind_eq]) (fun _ ↦ pure rfl) fun _ ↦ unknown

theorem operandAfter (h : parser.Twins naming twin)
    (hinner : MirrorsExpressions naming parser twin levels levels') (operator : BinaryOperator) :
    parser.Mirrors twin (Expr.rename naming)
      (Parser.operandAfter (expressionWithin levels) operator)
      (Parser.operandAfter (expressionWithin levels') operator) := by
  refine (advance h).bind fun _ n _ _ ↦ ?_
  exact bind_option (primaryWith (h.skip n) (hinner.skip n)) (fun _ ↦ missing _) fun _ _ ↦ pure rfl

theorem nextOperation (h : parser.Twins naming twin)
    (hinner : MirrorsExpressions naming parser twin levels levels') (rank : Nat) :
    parser.Mirrors twin (Option.map (Operation.rename naming))
      (Parser.nextOperation (expressionWithin levels) rank)
      (Parser.nextOperation (expressionWithin levels') rank) := by
  apply get
  rw [h.operator?_eq]
  split
  · exact pure rfl
  · exact ite Iff.rfl (fun _ ↦ pure rfl) fun _ ↦ (operandAfter h hinner _).map fun _ ↦ rfl

theorem operationsWith (h : parser.Twins naming twin)
    (hinner : MirrorsExpressions naming parser twin levels levels') (least : BindingPower)
    (first : Expr) : parser.Mirrors twin (Expr.rename naming)
      (Parser.operationsWith (expressionWithin levels) least first)
      (Parser.operationsWith (expressionWithin levels') least (first.rename naming)) := by
  rw [operationsWith_eq, operationsWith_eq]
  have hmany := many (progressesAmong_nextOperation least.rank).progresses
    (progressesAmong_nextOperation least.rank).progresses h
    fun n ↦ nextOperation (h.skip n) (hinner.skip n) least.rank
  exact hmany.map (Operation.assemble_rename naming first)

end Mirrors

theorem mirrorsExpressions (h : parser.Twins naming twin)
    (hkeeps : parser.Keeps twin levels levels') :
    MirrorsExpressions naming parser twin levels levels' := by
  induction levels generalizing levels' with
  | zero =>
    refine fun n ↦ Mirrors.tooDeep (hkeeps.skip n) fun hlevels ↦ ?_
    rw [hlevels, expressionWithin]
  | succ levels ih =>
    obtain ⟨levels', rfl, hinner⟩ := hkeeps.exists_of_succ
    replace hinner := ih hinner
    intro n
    refine Mirrors.bind_option (.primaryWith (h.skip n) (hinner.skip n)) (fun _ ↦ .pure rfl)
      fun first m ↦ ?_
    exact (Mirrors.operationsWith ((h.skip n).skip m) ((hinner.skip n).skip m) .lowest first).map
      fun _ ↦ rfl

end ExprLang.Parser
