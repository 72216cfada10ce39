import ExprLang.Proofs.ReadingExpressions
import ExprLang.Proofs.Recognition

/-!
# Expressions Are Recognized

Every derivation of an expression is recognized with as many levels as it is deep.  The operands of
one sequence are derived level by level and read one after the other, so a derivation is first
brought into the form of a sequence.
-/

namespace ExprLang

theorem Groups.mono {least least' : Nat} {first expr : Expr} {operations : List Operation}
    (h : Groups least first operations expr) (hle : least' ≤ least) :
    Groups least' first operations expr := by
  cases h with
  | operand => exact .operand
  | binary hleft hleast hright => exact .binary hleft (hle.trans hleast) hright

/-- A word goes on with a symbol of a kind. -/
def StartsWith (kinds : TokenKind → Prop) (word : List Symbol) : Prop :=
  ∃ symbol tail, word = symbol :: tail ∧ kinds symbol.kind

/-- The kinds that follow an expression. -/
def endsExpression : TokenKind → Bool
  | .char c => c = ',' || c = ')' || c = ';' || c = '{'
  | _ => false

namespace Parser

/-- Primary expressions of a depth are recognized with as many levels. -/
def RecognizesPrimary (depth : Nat) (expr : Expr) (word : List Symbol) : Prop :=
  ∀ (levels : Nat) (parser : Parser) (rest : List Symbol), parser.Ready →
    StartsWith (· ≠ .char '(') rest →
    parser.Recognizes (primaryWith (expressionWithin levels)) (some expr) word rest (depth ≤ levels)

def RecognizesExpression (depth : Nat) (expr : Expr) (word : List Symbol) : Prop :=
  ∀ (levels : Nat) (parser : Parser) (rest : List Symbol), parser.Ready →
    StartsWith (fun kind ↦ endsExpression kind) rest →
    parser.Recognizes (expressionWithin levels) (some expr) word rest (depth ≤ levels)

/-- Operations whose operands are recognized. -/
inductive RecognizedOperations : Nat → List Operation → List Symbol → Prop
  | nil : RecognizedOperations 0 [] []
  | cons {depth depth' : Nat} {operator : BinaryOperator} {operand : Expr}
      {operations : List Operation} {word word' : List Symbol} :
      RecognizesPrimary depth operand word → RecognizedOperations depth' operations word' →
      RecognizedOperations (max depth depth') (⟨operator, operator.power, operand⟩ :: operations)
        (.char operator.symbol :: (word ++ word'))

theorem RecognizedOperations.append {depth depth' : Nat} {operations operations' : List Operation}
    {word word' : List Symbol} (h : RecognizedOperations depth operations word)
    (h' : RecognizedOperations depth' operations' word') :
    RecognizedOperations (max depth depth') (operations ++ operations') (word ++ word') := by
  induction h with
  | nil => simpa using h'
  | cons hoperand _ ih => simpa [max_assoc] using RecognizedOperations.cons hoperand ih

/-- An operand of a level as a recognized sequence. -/
def RecognizedOperand (level depth : Nat) (expr : Expr) (word : List Symbol) : Prop :=
  ∃ first operations front back depth₁ depth₂, Groups level first operations expr ∧
    RecognizesPrimary depth₁ first front ∧ RecognizedOperations depth₂ operations back ∧
    word = front ++ back ∧ depth = max depth₁ depth₂

namespace RecognizedOperand

variable {level depth depth' : Nat} {expr left right : Expr} {word word' : List Symbol}

theorem primary (h : RecognizesPrimary depth expr word) : RecognizedOperand level depth expr word :=
  ⟨expr, [], word, [], depth, 0, .operand, h, .nil, by simp, by simp⟩

theorem tighter (h : RecognizedOperand (level + 1) depth expr word) :
    RecognizedOperand level depth expr word := by
  obtain ⟨first, operations, front, back, depth₁, depth₂, hgroups, h⟩ := h
  exact ⟨first, operations, front, back, depth₁, depth₂, hgroups.mono (Nat.le_succ _), h⟩

theorem binary {operator : BinaryOperator} (h : RecognizedOperand operator.level depth left word)
    (h' : RecognizedOperand (operator.level + 1) depth' right word') :
    RecognizedOperand operator.level (max depth depth') (.binary operator left right)
      (word ++ .char operator.symbol :: word') := by
  obtain ⟨first, operations, front, back, depth₁, depth₂, hleft, hfirst, hback, rfl, rfl⟩ := h
  obtain
    ⟨first', operations', front', back', depth₁', depth₂', hright, hfirst', hback', rfl, rfl⟩ :=
    h'
  rw [← operator.rank_power] at hleft hright ⊢
  have hgroups : Groups operator.power.rank first
      (operations ++ ⟨operator, operator.power, first'⟩ :: operations')
      (.binary operator left right) := .binary hleft le_rfl hright
  refine ⟨first, _, front, _, depth₁, _, hgroups, hfirst,
    hback.append (.cons hfirst' hback'), ?_, ?_⟩
  · simp
  · simp [max_assoc]

end RecognizedOperand

/-- Arguments that are recognized. -/
inductive RecognizedArguments : Nat → List Expr → List Symbol → Prop
  | last {depth : Nat} {arg : Expr} {word : List Symbol} : RecognizesExpression depth arg word →
      RecognizedArguments depth [arg] word
  | cons {depth depth' : Nat} {arg : Expr} {args : List Expr} {word word' : List Symbol} :
      RecognizesExpression depth arg word → RecognizedArguments depth' args word' →
      RecognizedArguments (max depth depth') (arg :: args) (word ++ .char ',' :: word')

variable {parser : Parser} {levels depth : Nat} {rest : List Symbol}

namespace Recognizes

theorem char (c : Char) [Text.OneLine (TokenKind.char c).describe] (rest : List Symbol) :
    parser.Recognizes (Functor.discard (expectChar c)) () [.char c] rest True :=
  expectAs (Symbol.char_kind c)

variable {inner : Step (Option Expr)}

theorem requiredWith {expr : Expr} {word : List Symbol} {fits : Prop}
    (hinner : parser.Recognizes inner (some expr) word rest fits) (after : String) :
    parser.Recognizes (Parser.requiredWith inner after) expr word rest fits := by
  refine @bind_last _ _ _ inner _ _ _ _ _ _ (fun result ↦ ?_) hinner pure
  cases result <;> infer_instance

theorem primaryWith {form : PrimaryForm} {expr : Expr} {word : List Symbol} {fits : Prop}
    (h : parser.Ready)
    (hform : Tables.default.primaries.find? parser.current.kind = some form)
    (hstep : parser.Recognizes (formWith inner form) expr word rest fits) :
    parser.Recognizes (Parser.primaryWith inner) (some expr) word rest fits := by
  apply get
  rw [h.tables, hform]
  exact hstep.map

theorem primaryWith_absent (h : parser.Ready) (hkind : isCloser parser.current.kind) :
    parser.Recognizes (Parser.primaryWith inner) none [] rest True := by
  have hform : Tables.default.primaries.find? parser.current.kind = none := by
    rw [Tables.find?_primaries]
    split <;> simp_all [isCloser_iff]
    rintro rfl
    simp at hkind
  apply get
  rw [h.tables, hform]
  simp only [hkind, if_true]
  exact pure

theorem numberPrimary (h : parser.Ready) (lexeme : String) (rest : List Symbol) :
    parser.Recognizes Parser.numberPrimary (.number (.ofLiteral lexeme.toList)) [.number lexeme]
      rest True := by
  apply of_head rfl
  intro hsymbol
  have hkind : parser.current.kind = .number := congrArg Symbol.kind hsymbol
  have hlexeme : parser.current.lexeme = lexeme := congrArg Symbol.lexeme hsymbol
  refine get ((discard_advance hsymbol rest).bind_last ?_)
  rw [h.inStep.number_eq hkind, hlexeme]
  exact pure

variable [Skips inner]

theorem var (h : parser.Ready) (name : String) (hrest : StartsWith (· ≠ .char '(') rest) :
    parser.Recognizes (Parser.nameWith inner) (.var name) [.name name] rest True := by
  obtain ⟨next, tail, rfl, hnext⟩ := hrest
  apply of_head rfl
  intro hsymbol
  have hkind : parser.current.kind = .identifier := congrArg Symbol.kind hsymbol
  have hname : parser.current.lexeme = name := congrArg Symbol.lexeme hsymbol
  rw [Parser.nameWith]
  refine get ((discard_advance hsymbol (next :: tail)).bind_last (get ?_))
  apply of_head rfl
  intro hafter
  have hopening : ¬ (parser.skip 1).current.isChar '(' := by
    rw [← hafter] at hnext
    exact mt Token.isChar_iff.mp hnext
  rw [h.inStep.word_eq hkind, hname]
  rw [List.length_singleton, if_neg hopening]
  exact pure

theorem call (h : parser.Ready) {name : String} {args : List Expr} {word : List Symbol}
    {fits : Prop} (hargs : ∀ parser' : Parser, parser'.Ready →
      parser'.Recognizes (argumentsWith inner) args word rest fits) :
    parser.Recognizes (Parser.nameWith inner) (.call name args)
      (.name name :: .char '(' :: word) rest fits := by
  apply of_head rfl
  intro hsymbol
  have hkind : parser.current.kind = .identifier := congrArg Symbol.kind hsymbol
  have hname : parser.current.lexeme = name := congrArg Symbol.lexeme hsymbol
  rw [Parser.nameWith]
  refine get ((discard_advance hsymbol _).bind_symbol (get ?_))
  apply of_head rfl
  intro hafter
  have hopening : (parser.skip 1).current.isChar '(' :=
    Token.isChar_iff.mpr (congrArg Symbol.kind hafter)
  rw [h.inStep.word_eq hkind, hname, if_pos hopening]
  apply (discard_advance hafter _).bind_symbol
  exact (hargs _ ((h.skip 1).skip 1)).bind_last pure

theorem parenthesised (h : parser.Ready) {expr : Expr} {word : List Symbol} {fits : Prop}
    (hexpr : ∀ parser' : Parser, parser'.Ready →
      parser'.Recognizes inner (some expr) word (.char ')' :: rest) fits) :
    parser.Recognizes (Parser.parenthesisedWith inner) expr
      (.char '(' :: (word ++ [.char ')'])) rest fits := by
  apply of_head rfl
  intro hsymbol
  apply (discard_advance hsymbol _).bind_symbol
  refine (((requiredWith (hexpr _ (h.skip 1)) _).bind fun _ _ ↦ ?_).congr (iff_of_eq (and_true _)))
  exact (char ')' rest).bind_last pure

theorem afterCommas_nil {α : Type} {item : Step α} [Skips item] (h : parser.Ready)
    (hprogress : Progresses (afterComma item)) (hrest : StartsWith (· ≠ .char ',') rest) :
    parser.Recognizes (afterCommas item) [] [] rest True := by
  obtain ⟨next, tail, rfl, hnext⟩ := hrest
  refine of_head rfl fun hsymbol ↦ many_nil hprogress h (get ?_)
  have hcomma : ¬ parser.current.isChar ',' := by
    rw [← hsymbol] at hnext
    exact mt Token.isChar_iff.mp hnext
  rw [if_neg hcomma]
  exact pure

theorem afterCommas_cons {α : Type} {item : Step α} [Skips item] {a : α} {as : List α}
    {word word' : List Symbol} {fits fits' : Prop} (h : parser.Ready)
    (hprogress : Progresses (afterComma item))
    (hitem : ∀ parser' : Parser, parser'.Ready →
      parser'.Recognizes item a word (word' ++ rest) fits)
    (hothers : ∀ parser' : Parser, parser'.Ready →
      parser'.Recognizes (afterCommas item) as word' rest fits') :
    parser.Recognizes (afterCommas item) (a :: as) (.char ',' :: (word ++ word')) rest
      (fits ∧ fits') := by
  apply of_head rfl
  intro hsymbol
  have hcomma : parser.current.isChar ',' := Token.isChar_iff.mpr (congrArg Symbol.kind hsymbol)
  have hstep : parser.Recognizes (afterComma item) (some a) (.char ',' :: word) (word' ++ rest)
      fits := by
    apply get
    rw [if_pos hcomma]
    exact (discard_advance hsymbol _).bind_symbol (hitem _ (h.skip 1)).map
  exact many_cons hprogress h hstep fun _ ↦ hothers _ (h.skip _)

end Recognizes

theorem RecognizedArguments.afterCommas {args : List Expr} {word : List Symbol}
    (hargs : RecognizedArguments depth args word) (h : parser.Ready)
    (hrest : StartsWith (· = .char ')') rest) :
    parser.Recognizes (Parser.afterCommas (requiredWith (expressionWithin levels) "','")) args
      (.char ',' :: word) rest (depth ≤ levels) := by
  have hprogress := progresses_afterComma_required levels "','"
  induction hargs generalizing parser with
  | last harg =>
    obtain ⟨closing, tail, rfl, hclosing⟩ := hrest
    have hnil {parser' : Parser} (h' : parser'.Ready) :=
      Recognizes.afterCommas_nil h' hprogress ⟨closing, tail, rfl, by simp [hclosing]⟩
    have hitem {parser' : Parser} (h' : parser'.Ready) := Recognizes.requiredWith
      (harg levels parser' (closing :: tail) h'
        ⟨_, _, rfl, by simp [hclosing, endsExpression]⟩) "','"
    have hcons := Recognizes.afterCommas_cons h hprogress (fun _ h' ↦ hitem h') fun _ h' ↦ hnil h'
    simpa using hcons
  | @cons _ _ _ _ _ word' harg _ ih =>
    have hrest : StartsWith (fun kind ↦ endsExpression kind) ((.char ',' :: word') ++ rest) :=
      ⟨_, _, rfl, by simp [endsExpression]⟩
    have hcons := Recognizes.afterCommas_cons h hprogress
      (fun parser' h' ↦ (harg levels parser' _ h' hrest).requiredWith "','") fun _ h' ↦ ih h'
    exact hcons.congr max_le_iff.symm

theorem Recognizes.argumentsWith {arg : Expr} {others : List Expr} {word word' : List Symbol}
    {fits : Prop} (harg : RecognizesExpression depth arg word) (h : parser.Ready)
    (hothers : ∀ parser' : Parser, parser'.Ready → parser'.Recognizes
      (Parser.afterCommas (Parser.requiredWith (expressionWithin levels) "','")) others word'
      ([.char ')'] ++ rest) fits)
    (hnext : StartsWith (fun kind ↦ endsExpression kind) (word' ++ [.char ')'] ++ rest)) :
    parser.Recognizes (Parser.argumentsWith (expressionWithin levels)) (arg :: others)
      (word ++ (word' ++ [.char ')'])) rest (depth ≤ levels ∧ fits) := by
  refine @bind _ _ _ _ _ _ _ _ _ _ _ _ (fun result ↦ ?_) (harg levels parser _ h hnext) fun _ _ ↦ ?_
  · cases result <;> infer_instance
  · refine ((hothers _ (h.skip _)).bind fun _ _ ↦ ?_).congr (iff_of_eq (and_true _))
    exact (expectAs rfl).bind_last pure

theorem RecognizedArguments.argumentsWith {args : List Expr} {word : List Symbol}
    (hargs : RecognizedArguments depth args word) (h : parser.Ready) (rest : List Symbol) :
    parser.Recognizes (Parser.argumentsWith (expressionWithin levels)) args
      (word ++ [.char ')']) rest (depth ≤ levels) := by
  cases hargs with
  | @last _ _ word harg =>
    change parser.Recognizes _ _ (word ++ ([] ++ [.char ')'])) rest _
    refine (Recognizes.argumentsWith harg h (fun parser' h' ↦ ?_) ?_).congr (iff_of_eq (and_true _))
    · exact Recognizes.afterCommas_nil h' (progresses_afterComma_required levels _)
        ⟨_, _, rfl, by simp⟩
    · exact ⟨_, _, rfl, by simp [endsExpression]⟩
  | cons harg hargs =>
    rw [List.append_assoc]
    refine (Recognizes.argumentsWith harg h (fun parser' h' ↦ ?_) ?_).congr max_le_iff.symm
    · exact hargs.afterCommas h' ⟨_, _, rfl, rfl⟩
    · exact ⟨_, _, rfl, by simp [endsExpression]⟩

/-! ## Operations -/

theorem operator?_eq_none (h : parser.Ready) (hkind : endsExpression parser.current.kind) :
    parser.operator? = none := by
  rw [h.operator?_eq]
  split
  · next c hc =>
    rw [hc] at hkind
    simp only [endsExpression, Bool.or_eq_true, decide_eq_true_eq] at hkind
    rcases hkind with ((rfl | rfl) | rfl) | rfl <;> rfl
  · rfl

theorem operator?_eq_some (h : parser.Ready) {operator : BinaryOperator}
    (hkind : parser.current.kind = .char operator.symbol) :
    parser.operator? = some (operator, operator.power) := by
  simp [h.operator?_eq, hkind]

theorem Recognizes.nextOperation {inner : Step (Option Expr)} [Skips inner]
    {operator : BinaryOperator} {operand : Expr} {word : List Symbol} {fits : Prop}
    (h : parser.Ready) (hsymbol : parser.current.symbol = .char operator.symbol)
    (hoperand : ∀ parser' : Parser, parser'.Ready →
      parser'.Recognizes (Parser.primaryWith inner) (some operand) word rest fits) :
    parser.Recognizes (Parser.nextOperation inner 0)
      (some ⟨operator, operator.power, operand⟩) (.char operator.symbol :: word) rest fits := by
  apply get
  rw [operator?_eq_some h (congrArg Symbol.kind hsymbol)]
  simp only [Nat.not_lt_zero, if_false]
  refine Recognizes.map ((discard_advance hsymbol _).bind_symbol ?_)
  exact (hoperand _ (h.skip 1)).bind_last pure

theorem RecognizedOperations.startsWith {operations : List Operation} {word : List Symbol}
    (h : RecognizedOperations depth operations word)
    (hrest : StartsWith (fun kind ↦ endsExpression kind) rest) :
    StartsWith (· ≠ .char '(') (word ++ rest) := by
  cases h with
  | nil =>
    obtain ⟨next, tail, rfl, hnext⟩ := hrest
    refine ⟨next, tail, rfl, ?_⟩
    rintro hkind
    simp [hkind, endsExpression] at hnext
  | @cons _ _ operator =>
    refine ⟨_, _, rfl, ?_⟩
    cases operator <;> simp [BinaryOperator.symbol]

theorem RecognizedOperations.many {operations : List Operation} {word : List Symbol}
    (hoperations : RecognizedOperations depth operations word) (h : parser.Ready)
    (hrest : StartsWith (fun kind ↦ endsExpression kind) rest) :
    parser.Recognizes (Parser.many (nextOperation (expressionWithin levels) 0)) operations word
      rest (depth ≤ levels) := by
  have hprogress : Progresses (nextOperation (expressionWithin levels) 0) :=
    (progressesAmong_nextOperation 0).progresses
  induction hoperations generalizing parser with
  | nil =>
    obtain ⟨next, tail, rfl, hnext⟩ := hrest
    refine (Recognizes.of_head rfl fun hsymbol ↦ ?_).congr (iff_of_true trivial (Nat.zero_le _))
    refine Recognizes.many_nil hprogress h (Recognizes.get ?_)
    rw [← hsymbol] at hnext
    rw [operator?_eq_none h hnext]
    exact Recognizes.pure
  | @cons depth depth' operator operand operations word word' hoperand hoperations ih =>
    apply Recognizes.of_head rfl
    intro hsymbol
    have hoperator := operator?_eq_some h (congrArg Symbol.kind hsymbol)
    have hnext : StartsWith (· ≠ .char '(') (word' ++ rest) := hoperations.startsWith hrest
    have hoperation := Recognizes.nextOperation h hsymbol fun parser' h' ↦
      hoperand levels parser' _ h' hnext
    exact (Recognizes.many_cons hprogress h hoperation fun _ ↦ ih (h.skip _)).congr max_le_iff.symm

theorem recognizesPrimary_number (lexeme : String) :
    RecognizesPrimary 0 (.number (.ofLiteral lexeme.toList)) [.number lexeme] := by
  intro levels parser rest h _
  apply Recognizes.of_head rfl
  intro hsymbol
  have hform : Tables.default.primaries.find? parser.current.kind = some .number := by
    rw [← Token.symbol_kind, hsymbol]
    rfl
  exact Recognizes.primaryWith h hform
    ((Recognizes.numberPrimary h lexeme rest).congr (iff_of_true trivial (Nat.zero_le _)))

theorem recognizesPrimary_name {depth : Nat} {name : String} {expr : Expr} {word : List Symbol}
    (hstep : ∀ (levels : Nat) (parser : Parser) (rest : List Symbol), parser.Ready →
      StartsWith (· ≠ .char '(') rest → parser.Recognizes (nameWith (expressionWithin levels)) expr
        (.name name :: word) rest (depth ≤ levels)) :
    RecognizesPrimary depth expr (.name name :: word) := by
  intro levels parser rest h hrest
  apply Recognizes.of_head rfl
  intro hsymbol
  have hform : Tables.default.primaries.find? parser.current.kind = some .name := by
    rw [← Token.symbol_kind, hsymbol]
    rfl
  exact Recognizes.primaryWith h hform (hstep levels parser rest h hrest)

theorem recognizesPrimary_var (name : String) : RecognizesPrimary 0 (.var name) [.name name] :=
  recognizesPrimary_name fun _ _ _ h hrest ↦
    (Recognizes.var h name hrest).congr (iff_of_true trivial (Nat.zero_le _))

theorem recognizesPrimary_call {depth : Nat} (name : String) {args : List Expr} {word : List Symbol}
    (hargs : RecognizedArguments depth args word) :
    RecognizesPrimary depth (.call name args) (.name name :: .char '(' :: (word ++ [.char ')'])) :=
  recognizesPrimary_name fun _ _ rest h _ ↦
    Recognizes.call h fun _ h' ↦ hargs.argumentsWith h' rest

theorem recognizesPrimary_parenthesised {depth : Nat} {expr : Expr} {word : List Symbol}
    (hexpr : RecognizesExpression depth expr word) :
    RecognizesPrimary depth expr (.char '(' :: (word ++ [.char ')'])) := by
  intro levels parser rest h _
  apply Recognizes.of_head rfl
  intro hsymbol
  have hform : Tables.default.primaries.find? parser.current.kind = some .parenthesised := by
    rw [← Token.symbol_kind, hsymbol]
    rfl
  refine Recognizes.primaryWith h hform (Recognizes.parenthesised h fun parser' h' ↦ ?_)
  exact hexpr levels parser' _ h' ⟨_, _, rfl, by simp [endsExpression]⟩

/-- Where an expression may be left out, finding that it is takes a level. -/
theorem recognizes_absent (h : parser.Ready) (hrest : StartsWith (fun kind ↦ isCloser kind) rest) :
    parser.Recognizes (expressionWithin levels) none [] rest (1 ≤ levels) := by
  obtain ⟨next, tail, rfl, hnext⟩ := hrest
  apply Recognizes.of_head rfl
  intro hsymbol
  rw [← hsymbol] at hnext
  cases levels with
  | zero => exact Recognizes.tooDeep (by omega)
  | succ levels =>
    refine Recognizes.congr ?_ (iff_of_true trivial (by omega))
    rw [expressionWithin]
    refine @Recognizes.bind_last _ _ _ _ _ _ _ _ _ _ (fun result ↦ ?_)
      (Recognizes.primaryWith_absent h hnext) Recognizes.pure
    cases result <;> infer_instance

theorem recognizesPrimary_emptyCall (name : String) :
    RecognizesPrimary 1 (.call name []) [.name name, .char '(', .char ')'] := by
  refine recognizesPrimary_name fun levels parser rest h _ ↦ Recognizes.call h fun parser' h' ↦ ?_
  have habsent : parser'.Recognizes (expressionWithin levels) none [] ([.char ')'] ++ rest)
      (1 ≤ levels) := recognizes_absent h' ⟨_, _, rfl, by simp [isCloser_iff]⟩
  refine (@Recognizes.bind _ _ _ _ _ _ _ _ _ _ _ _ (fun result ↦ ?_) habsent fun _ _ ↦ ?_).congr
    (iff_of_eq (and_true _))
  · cases result <;> infer_instance
  · exact (Recognizes.char ')' rest).bind_last Recognizes.pure

theorem RecognizedOperand.expression {depth : Nat} {expr : Expr} {word : List Symbol}
    (h : RecognizedOperand 1 depth expr word) : RecognizesExpression (depth + 1) expr word := by
  obtain ⟨first, operations, front, back, depth₁, depth₂, hgroups, hfirst, hback, rfl, rfl⟩ := h
  intro levels parser rest h hrest
  cases levels with
  | zero => exact Recognizes.tooDeep (by omega)
  | succ levels =>
    have hprimary := hfirst levels parser _ h (hback.startsWith hrest)
    have hoperations {parser' : Parser} (h' : parser'.Ready) :
        parser'.Recognizes (operationsWith (expressionWithin levels) .lowest first) expr back rest
          (depth₂ ≤ levels) := by
      rw [operationsWith_eq, ← Operation.assemble_of_groups hgroups]
      exact (hback.many h' hrest).map
    rw [expressionWithin, Nat.succ_le_succ_iff, max_le_iff]
    refine @Recognizes.bind _ _ _ _ _ _ _ _ _ _ _ _ (fun result ↦ ?_) hprimary fun _ _ ↦ ?_
    · cases result <;> infer_instance
    · exact (hoperations (h.skip _)).map

end Parser

end ExprLang
