import ExprLang.Proofs.Climbing
import ExprLang.Proofs.Reading

/-!
# Reading Expressions Reads the Grammar

Each step for expressions reads the phrase that it is named for.  The steps are given over the step
that reads one level deeper, and so are their laws.
-/

namespace ExprLang

/-- The power that the tables give to an operator. -/
def BinaryOperator.power : BinaryOperator → BindingPower
  | less | greater => .relational
  | add | subtract => .additive
  | multiply | divide => .multiplicative

@[simp]
theorem BinaryOperator.rank_power (operator : BinaryOperator) :
    operator.power.rank = operator.level := by
  cases operator <;> rfl

theorem Table.find?_cons {α : Type} (key : TokenKind) (value : α) (table : Table α)
    (kind : TokenKind) :
    Table.find? ((key, value) :: table) kind =
      if kind = key then some value else table.find? kind := by
  by_cases h : kind = key
  · simp [Table.find?, h]
  · have hne : (kind == key) = false := by simpa using h
    simp [Table.find?, List.lookup_cons, h, hne]

theorem Table.find?_nil {α : Type} (kind : TokenKind) :
    Table.find? ([] : Table α) kind = none := rfl

theorem Tables.find?_primaries (kind : TokenKind) :
    Tables.default.primaries.find? kind = match kind with
      | .number => some .number
      | .identifier => some .name
      | .char c => if c = '(' then some .parenthesised else none
      | _ => none := by
  cases kind <;> simp [Tables.default, Table.find?_cons, Table.find?_nil]

theorem Tables.kind_of_number {kind : TokenKind}
    (h : Tables.default.primaries.find? kind = some .number) : kind = .number := by
  rw [find?_primaries] at h
  cases kind <;> simp_all

theorem Tables.kind_of_name {kind : TokenKind}
    (h : Tables.default.primaries.find? kind = some .name) : kind = .identifier := by
  rw [find?_primaries] at h
  cases kind <;> simp_all

theorem Tables.find?_statements (kind : TokenKind) :
    Tables.default.statements.find? kind = match kind with
      | .keyword .result => some .result
      | .keyword .branch => some .conditional
      | .keyword .loop => some .loop
      | _ => none := by
  cases kind with
  | keyword keyword => cases keyword <;> rfl
  | _ => rfl

theorem Tables.find?_powers (c : Char) : Tables.default.powers.find? (.char c) =
    (BinaryOperator.ofChar? c).map BinaryOperator.power := by
  cases hoperator : BinaryOperator.ofChar? c with
  | some operator =>
    obtain rfl := BinaryOperator.ofChar?_eq_some_iff.mp hoperator
    cases operator <;> rfl
  | none =>
    have hne (operator : BinaryOperator) : c ≠ operator.symbol := by
      rintro rfl
      simp at hoperator
    have hless := hne .less
    have hgreater := hne .greater
    have hadd := hne .add
    have hsubtract := hne .subtract
    have hmultiply := hne .multiply
    have hdivide := hne .divide
    simp only [BinaryOperator.symbol] at hless hgreater hadd hsubtract hmultiply hdivide
    simp [Tables.default, Table.find?_cons, Table.find?_nil, *]

namespace Parser

variable {parser : Parser} {bound levels : Nat}

theorem Ready.operator?_eq (h : parser.Ready) : parser.operator? = match parser.current.kind with
    | .char c => (BinaryOperator.ofChar? c).map fun operator ↦ (operator, operator.power)
    | _ => none := by
  unfold operator?
  rw [h.tables]
  cases parser.current.kind with
  | char c =>
    simp only [Tables.find?_powers]
    cases hoperator : BinaryOperator.ofChar? c <;> simp [hoperator]
  | _ => rfl

theorem Ready.kind_of_operator? (h : parser.Ready) {operator : BinaryOperator}
    {power : BindingPower} (hoperator : parser.operator? = some (operator, power)) :
    parser.current.kind = .char operator.symbol ∧ power = operator.power := by
  rw [h.operator?_eq] at hoperator
  split at hoperator
  · next c hkind =>
    obtain ⟨other, hother, heq⟩ := Option.map_eq_some_iff.mp hoperator
    obtain ⟨rfl, rfl⟩ := Prod.mk.inj heq
    rw [hkind, BinaryOperator.ofChar?_eq_some_iff.mp hother]
    exact ⟨rfl, rfl⟩
  · simp at hoperator

end Parser

/-! ## Primary expressions -/

theorem isNumber_zero : IsNumber "0" :=
  ⟨.number (.intro rfl (by simp)) (by simp [Ends]) (by decide), by simp⟩

theorem viable_operand : Viable (fun expr ↦ Spells (.operand 4 expr)) [] :=
  ⟨_, [.number "0"], 0, .number isNumber_zero⟩

theorem viable_expression : Viable (fun expr ↦ Spells (.expression expr)) [] :=
  ⟨_, [.number "0"], 1, .expression (.tighter (.tighter (.tighter (.number isNumber_zero))))⟩

/-- The words that make a call of a name and an opening parenthesis. -/
def SpellsCall (args : List Expr) (word : List Symbol) : Prop :=
  ∀ name, IsName name → Spells (.operand 4 (.call name args)) (.name name :: .char '(' :: word)

namespace Parser

variable {parser : Parser} {bound levels : Nat}

/-- One repetition of `afterCommas`. -/
def afterComma {α : Type} (item : Step α) : Step (Option α) := do
  if (← get).current.isChar ',' then
    discard advance
    some <$> item
  else pure none

instance Skips.afterComma {α : Type} (item : Step α) [Skips item] :
    Skips (Parser.afterComma item) := by
  unfold Parser.afterComma
  infer_instance

/-- The step reads expressions and has a number of levels for them. -/
def ReadsExpressions (inner : Step (Option Expr)) (levels : Nat) : Prop :=
  ∀ (parser : Parser) (bound : Nat), parser.Ready → bound ≤ parser.taken + levels →
    parser.Reads inner
      (Maybe (isCloser parser.current.kind) fun expr ↦ Spells (.expression expr)) bound

namespace Reads

theorem afterComma {α : Type} {item : Step α} {spells : α → List Symbol → Prop}
    (h : parser.Ready) (hviable : Viable spells [])
    (hitem : ∀ n, (parser.skip n).Reads item spells bound) :
    parser.Reads (Parser.afterComma item) (Maybe True (SpellsAfterComma spells)) bound := by
  obtain ⟨a, rest, hrest⟩ := hviable
  apply get
  split
  · next hcomma =>
    apply (takeChar h (Token.isChar_iff.mp hcomma) bound).bind_word
      ⟨some a, rest, rest, rfl, hrest⟩
    intro _ n _
    exact (hitem n).map fun a word ha ↦ ⟨word, rfl, ha⟩
  · exact pure ⟨trivial, rfl⟩

theorem afterCommas {α : Type} {item : Step α} {spells : α → List Symbol → Prop}
    (h : parser.Ready) (hviable : Viable spells [])
    (hitem : ∀ n, (parser.skip n).Reads item spells bound) :
    parser.Reads (Parser.afterCommas item) (Chain (SpellsAfterComma spells)) bound := by
  refine many (fun _ ↦ True) fun n ↦ afterComma (h.skip n) hviable fun m ↦ ?_
  rw [skip_skip]
  exact hitem (n + m)

theorem progresses_afterComma {α : Type} {item : Step α} {spells : α → List Symbol → Prop}
    (hviable : Viable spells [])
    (hitem : ∀ parser : Parser, parser.Ready → parser.Reads item spells 0) :
    Progresses (Parser.afterComma item) := by
  refine progresses (fun _ ↦ True)
    (fun parser h ↦ afterComma h hviable fun n ↦ hitem _ (h.skip n)) ?_
  rintro a word ⟨rest, rfl, -⟩
  exact ⟨_, _, rfl, by simp⟩

variable {inner : Step (Option Expr)}

theorem requiredWith (hinner : ReadsExpressions inner levels) (h : parser.Ready)
    (hbound : bound ≤ parser.taken + levels) (after : String) :
    parser.Reads (Parser.requiredWith inner after) (fun expr ↦ Spells (.expression expr))
      bound := by
  refine (hinner parser bound h hbound).bind ?_ ?_
  · intro result word hresult
    cases result with
    | none =>
      rw [hresult.2]
      exact viable_expression
    | some expr => exact ⟨expr, [], by simpa using hresult⟩
  · intro result n hresult
    cases result with
    | none => exact fail rfl (by simpa [hresult.2] using viable_expression)
    | some expr => exact pure (by simpa using hresult)

theorem numberPrimary (h : parser.Ready) (hkind : parser.current.kind = .number) :
    parser.Reads Parser.numberPrimary (fun expr ↦ Spells (.operand 4 expr)) bound := by
  have hspells : Spells (.operand 4 (.number parser.lexer.number)) [parser.current.symbol] := by
    rw [h.inStep.number_eq hkind, show parser.current.symbol = .number parser.current.lexeme by
      rw [Token.symbol, hkind, Symbol.number]]
    exact ⟨0, .number (h.isNumber hkind)⟩
  refine get ((advance parser bound).discard.bind_word ⟨_, [], hspells⟩ fun _ n _ ↦ ?_)
  exact pure hspells

theorem argumentsWith (hinner : ReadsExpressions inner levels) (h : parser.Ready)
    (hbound : bound ≤ parser.taken + levels) :
    parser.Reads (Parser.argumentsWith inner) SpellsCall bound := by
  have hcall {args : List Expr} {word : List Symbol} (hargs : Spells (.arguments args) word) :
      SpellsCall args (word ++ [.char ')']) := by
    obtain ⟨depth, hargs⟩ := hargs
    exact fun name hname ↦ ⟨depth, .call hname hargs⟩
  have hempty : SpellsCall [] [.char ')'] := fun name hname ↦ ⟨1, .emptyCall hname⟩
  refine (hinner parser bound h hbound).bind ?_ ?_
  · intro result word hresult
    cases result with
    | none =>
      rw [hresult.2]
      exact ⟨[], _, hempty⟩
    | some first =>
      have hargs := spells_arguments (by simpa using hresult) .nil
      exact ⟨_, [.char ')'], by simpa using hcall hargs⟩
  · intro result n hresult
    cases result with
    | none =>
      refine (expectChar (h.skip n) ')' bound).bind ?_ ?_
      · rintro _ word rfl
        exact ⟨[], [], by simpa [hresult.2] using hempty⟩
      · intro _ m hm
        exact pure (by simpa [hresult.2, hm] using hempty)
    | some first =>
      have hfirst : Spells (.expression first) (parser.ahead n) := hresult
      refine (afterCommas (h.skip n) viable_expression fun m ↦ ?_).bind ?_ ?_
      · exact requiredWith hinner ((h.skip n).skip m)
          (le_skip_taken_add (le_skip_taken_add hbound n) m) _
      · intro others word hothers
        exact ⟨_, [.char ')'], by simpa using hcall (spells_arguments hfirst hothers)⟩
      · intro others m hothers
        have hargs := hcall (spells_arguments hfirst hothers)
        refine (expectClosing ((h.skip n).skip m) bound).bind ?_ ?_
        · rintro _ word rfl
          exact ⟨_, [], by simpa using hargs⟩
        · intro _ k hk
          exact pure (by simpa [hk] using hargs)

theorem nameWith (hinner : ReadsExpressions inner levels) (h : parser.Ready)
    (hkind : parser.current.kind = .identifier) (hbound : bound ≤ parser.taken + (levels + 1)) :
    parser.Reads (Parser.nameWith inner) (fun expr ↦ Spells (.operand 4 expr)) bound := by
  have hname := h.isName hkind
  have hsymbol : parser.current.symbol = .name parser.current.lexeme := by
    rw [Token.symbol, hkind, Symbol.name]
  have hvar : Spells (.operand 4 (.var parser.current.lexeme)) [parser.current.symbol] := by
    rw [hsymbol]
    exact ⟨0, .var hname⟩
  refine get ((advance parser bound).discard.bind_word ⟨_, [], hvar⟩ fun _ n hn ↦ ?_)
  rw [h.inStep.word_eq hkind]
  apply get
  split
  · next hopening =>
    rw [hsymbol]
    apply (takeChar (h.skip n) (Token.isChar_iff.mp hopening) bound).bind_word
      ⟨_, [.char ')'], 1, .emptyCall hname⟩
    intro _ m _
    refine (argumentsWith hinner ((h.skip n).skip m) ?_).bind ?_ ?_
    · simp only [skip_taken, hn, List.length_singleton]
      omega
    · exact fun args word hargs ↦ ⟨_, [], by simpa using hargs _ hname⟩
    · exact fun args k hargs ↦ pure (by simpa using hargs _ hname)
  · exact pure hvar

theorem parenthesisedWith (hinner : ReadsExpressions inner levels) (h : parser.Ready)
    (hkind : parser.current.kind = .char '(') (hbound : bound ≤ parser.taken + (levels + 1)) :
    parser.Reads (Parser.parenthesisedWith inner) (fun expr ↦ Spells (.operand 4 expr)) bound := by
  have hspells {expr : Expr} {word : List Symbol} (hexpr : Spells (.expression expr) word) :
      Spells (.operand 4 expr) (.char '(' :: (word ++ [.char ')'])) := by
    obtain ⟨depth, hexpr⟩ := hexpr
    exact ⟨depth, .parenthesised hexpr⟩
  refine (takeChar h hkind bound).bind_word ?_ fun _ n hn ↦ ?_
  · exact viable_expression.extend fun expr word hexpr ↦
      ⟨expr, [.char ')'], by simpa using hspells hexpr⟩
  · refine (requiredWith hinner (h.skip n) ?_ _).closed (h.skip n) ')' ?_
    · simp only [skip_taken, hn, List.length_singleton]
      omega
    · exact fun expr word hexpr ↦ ⟨expr, rfl, hspells hexpr⟩

theorem primaryWith (hinner : ReadsExpressions inner levels) (h : parser.Ready)
    (hbound : bound ≤ parser.taken + (levels + 1)) :
    parser.Reads (Parser.primaryWith inner)
      (Maybe (isCloser parser.current.kind) fun expr ↦ Spells (.operand 4 expr)) bound := by
  have hsome {step : Step Expr}
      (hstep : parser.Reads step (fun expr ↦ Spells (.operand 4 expr)) bound) :
      parser.Reads (some <$> step)
        (Maybe (isCloser parser.current.kind) fun expr ↦ Spells (.operand 4 expr)) bound :=
    hstep.map fun _ _ hexpr ↦ hexpr
  have hnone : parser.Reads (if isCloser parser.current.kind then Pure.pure none
      else Parser.fail (.unknownExpression parser.current.describe))
        (Maybe (isCloser parser.current.kind) fun expr ↦ Spells (.operand 4 expr)) bound := by
    split
    · next hcloser => exact pure ⟨hcloser, rfl⟩
    · obtain ⟨expr, rest, hexpr⟩ := viable_operand
      exact fail rfl ⟨some expr, rest, hexpr⟩
  apply get
  rw [h.tables, Tables.find?_primaries]
  cases hkind : parser.current.kind with
  | number =>
    have hprimary := hsome (numberPrimary h hkind)
    rwa [hkind] at hprimary
  | identifier =>
    have hprimary := hsome (nameWith hinner h hkind hbound)
    rwa [hkind] at hprimary
  | char c =>
    by_cases hc : c = '('
    · subst hc
      have hprimary := hsome (parenthesisedWith hinner h hkind hbound)
      rwa [hkind] at hprimary
    · rw [hkind] at hnone
      simpa only [hc, if_false] using hnone
  | _ => rwa [hkind] at hnone

/-! ## Operations -/

theorem operandAfter (hinner : ReadsExpressions inner levels) (h : parser.Ready)
    (hbound : bound ≤ parser.taken + (levels + 1)) {operator : BinaryOperator}
    (hkind : parser.current.kind = .char operator.symbol) :
    parser.Reads (Parser.operandAfter inner operator)
      (fun operand word ↦ SpellsOperation ⟨operator, operator.power, operand⟩ word) bound := by
  have hspells {operand : Expr} {word : List Symbol} (hword : Spells (.operand 4 operand) word) :
      SpellsOperation ⟨operator, operator.power, operand⟩ (.char operator.symbol :: word) :=
    ⟨operator.rank_power, word, rfl, hword⟩
  have hviable : Viable
      (fun operand word ↦ SpellsOperation ⟨operator, operator.power, operand⟩ word)
      [.char operator.symbol] := by
    obtain ⟨operand, rest, hoperand⟩ := viable_operand
    exact ⟨operand, rest, hspells hoperand⟩
  apply (takeChar h hkind bound).bind_word hviable
  intro _ n _
  refine (primaryWith hinner (h.skip n) (le_skip_taken_add hbound n)).bind ?_ ?_
  · intro result word hresult
    cases result with
    | none =>
      rw [hresult.2]
      exact hviable
    | some operand => exact ⟨operand, [], by simpa using hspells hresult⟩
  · intro result m hresult
    cases result with
    | none =>
      rw [hresult.2]
      exact fail rfl hviable
    | some operand => exact pure (by simpa using hspells hresult)

theorem nextOperation (hinner : ReadsExpressions inner levels) (h : parser.Ready)
    (hbound : bound ≤ parser.taken + (levels + 1)) (rank : Nat) :
    parser.Reads (Parser.nextOperation inner rank) (Maybe True SpellsOperation) bound := by
  apply get
  split
  · exact pure ⟨trivial, rfl⟩
  · next operator power hoperator =>
    split
    · exact pure ⟨trivial, rfl⟩
    · obtain ⟨hkind, rfl⟩ := h.kind_of_operator? hoperator
      exact (operandAfter hinner h hbound hkind).map fun operand word hoperand ↦ hoperand

theorem operationsWith [Skips inner] (hinner : ReadsExpressions inner levels) (h : parser.Ready)
    (hbound : bound ≤ parser.taken + (levels + 1)) (least : BindingPower) {first : Expr}
    {front : List Symbol} (hfirst : Spells (.operand 4 first) front) :
    parser.Reads (Parser.operationsWith inner least first)
      (fun expr word ↦ Spells (.operand 1 expr) (front ++ word)) bound := by
  have hspells {operations : List Operation} {word : List Symbol}
      (hchain : Chain SpellsOperation operations word) :
      Spells (.operand 1 (Operation.assemble first operations)) (front ++ word) := by
    have hgroups := Operation.groups_assemble first operations
    exact (spells_of_groups hgroups (Nat.zero_le _) hfirst hchain).operand_one
  rw [operationsWith_eq]
  refine map (many (fun _ ↦ True) fun n ↦ ?_) fun operations word hchain ↦ hspells hchain
  exact nextOperation hinner (h.skip n) (le_skip_taken_add hbound n) least.rank

end Reads

/-- An expression within a number of levels, its own included. -/
theorem readsExpressions_expressionWithin (levels : Nat) :
    ReadsExpressions (expressionWithin levels) levels := by
  induction levels with
  | zero =>
    refine fun parser bound _ hbound ↦ Reads.tooDeep ?_ hbound
    exact viable_expression.mono fun expr word hexpr ↦ ⟨some expr, [], by simpa using hexpr⟩
  | succ levels ih =>
    intro parser bound h hbound
    have hexpression {expr : Expr} {word : List Symbol} (hexpr : Spells (.operand 1 expr) word) :
        Spells (.expression expr) word := by
      obtain ⟨depth, hexpr⟩ := hexpr
      exact ⟨_, .expression hexpr⟩
    refine (Reads.primaryWith ih h hbound).bind ?_ ?_
    · intro result word hresult
      cases result with
      | none => exact ⟨none, [], hresult.1, by simp [hresult.2]⟩
      | some first =>
        have hfirst : Spells (.operand 4 first) word := hresult
        have hexpr := hexpression (hfirst.operand_of_le (by omega))
        exact ⟨some first, [], by simpa using hexpr⟩
    · intro result n hresult
      cases result with
      | none => exact Reads.pure ⟨hresult.1, by simp [hresult.2]⟩
      | some first =>
        exact (Reads.operationsWith ih (h.skip n) (le_skip_taken_add hbound n) _ hresult).map
          fun expr word hexpr ↦ hexpression hexpr

theorem progresses_afterComma_required (levels : Nat) (after : String) :
    Progresses (afterComma (requiredWith (expressionWithin levels) after)) :=
  Reads.progresses_afterComma viable_expression fun _ h ↦
    Reads.requiredWith (readsExpressions_expressionWithin levels) h (Nat.zero_le _) after

end Parser

end ExprLang
