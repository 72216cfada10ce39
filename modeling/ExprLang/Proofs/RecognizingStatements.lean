import ExprLang.Proofs.ReadingStatements
import ExprLang.Proofs.RecognizingExpressions

/-!
# Statements Are Recognized

A statement that starts with a name and a chain that goes on with `else` are told apart by the token
after that.  Either way the first token is taken, so a wrong second token is noticed where it
stands.
-/

namespace ExprLang

namespace Parser

def RecognizesStatement (depth : Nat) (stmt : Stmt) (word : List Symbol) : Prop :=
  ∀ (levels : Nat) (parser : Parser) (rest : List Symbol), parser.Ready →
    StartsWith (· ≠ .keyword .otherwise) rest →
    parser.Recognizes (statementWith (expressionWithin levels) (statementsWithin levels))
      (some stmt) word rest (depth ≤ levels)

/-- To see that a list is empty in front of a closing token takes a level. -/
def RecognizesStatements (depth : Nat) (body : Block) (word : List Symbol) : Prop :=
  ∀ (levels : Nat) (parser : Parser) (rest : List Symbol), parser.Ready →
    StartsWith (fun kind ↦ isCloser kind ∨ startsDeclaration kind) rest →
    (body = [] → StartsWith (fun kind ↦ isCloser kind) rest ∨ 1 ≤ levels) →
    parser.Recognizes (many (nextStatementWith (expressionWithin levels) (statementsWithin levels)))
      body word rest (depth ≤ levels)

def RecognizesBlock (depth : Nat) (body : Block) (word : List Symbol) : Prop :=
  ∀ (levels : Nat) (parser : Parser) (rest : List Symbol), parser.Ready →
    parser.Recognizes (blockWith (statementsWithin levels)) body word rest (depth ≤ levels)

/-- What follows the first link of a chain. -/
def chainAfter {α : Type} (expr : Step (Option Expr)) (statements : Step Block)
    (f : List Link → Option Block → α) : Step α := do
  let others ← many (nextLinkWith expr statements)
  let last ← lastBlockWith statements
  pure (f others last)

instance Skips.chainAfter {α : Type} (expr : Step (Option Expr)) [Skips expr]
    (statements : Step Block) [Skips statements] (f : List Link → Option Block → α) :
    Skips (Parser.chainAfter expr statements f) := by
  unfold Parser.chainAfter
  infer_instance

def RecognizesOtherwise (depth : Nat) (branch : ElseBranch) (word : List Symbol) : Prop :=
  ∀ (α : Type) (f : List Link → Option Block → α) (levels : Nat) (parser : Parser)
    (rest : List Symbol), parser.Ready → StartsWith (· ≠ .keyword .otherwise) rest →
    parser.Recognizes (chainAfter (expressionWithin levels) (statementsWithin levels) f)
      (f branch.links branch.last) word rest (depth ≤ levels)

/-- What follows the expression of a statement, if there is one. -/
def afterExpression : Option Expr → Step (Option Stmt)
  | none => pure none
  | some value => do
    discard (expectChar ';')
    pure (some (.expression value))

instance Skips.afterExpression (result : Option Expr) : Skips (Parser.afterExpression result) := by
  cases result
  · exact Skips.pure none
  · exact Skips.bind (Functor.discard (Parser.expectChar ';')) _

/-- What follows the targets of an assignment. -/
def assignTo (expr : Step (Option Expr)) (targets : List String) : Step Stmt := do
  let value ← requiredWith expr "'='"
  discard (expectChar ';')
  built (Stmt.assign targets value)

instance Skips.assignTo (expr : Step (Option Expr)) [Skips expr] (targets : List String) :
    Skips (Parser.assignTo expr targets) := by
  unfold Parser.assignTo
  infer_instance

theorem assignmentWith_eq (expr : Step (Option Expr)) :
    assignmentWith expr = many target >>= assignTo expr := rfl

variable {parser : Parser} {levels : Nat} {rest : List Symbol}

namespace Recognizes

theorem expression {expr : Expr} {depth : Nat} {word : List Symbol}
    (hexpr : RecognizesExpression depth expr word) (h : parser.Ready)
    (hrest : StartsWith (fun kind ↦ endsExpression kind) rest) (after : String) :
    parser.Recognizes (Parser.requiredWith (expressionWithin levels) after) expr word rest
      (depth ≤ levels) :=
  requiredWith (hexpr levels parser rest h hrest) after

section

variable {α β : Type} {step : Step α} {next : α → Step β} [∀ a, Skips (next a)] {a : α} {b : β}
  {word word' : List Symbol} {fits fits' : Prop}

theorem bind_closed (c : Char) [Text.OneLine (TokenKind.char c).describe]
    (hstep : parser.Recognizes step a word (.char c :: word' ++ rest) fits)
    (hnext : ∀ n, (parser.skip n).Recognizes (next a) b word' rest fits') :
    parser.Recognizes (step >>= fun a ↦ Functor.discard (expectChar c) >>= fun _ ↦ next a) b
      (word ++ .char c :: word') rest (fits ∧ fits') := by
  have hclosing (n : Nat) : (parser.skip n).Recognizes
      (Functor.discard (expectChar c) >>= fun _ ↦ next a) b (.char c :: word') rest fits' := by
    apply (char c (word' ++ rest)).bind_symbol
    rw [skip_skip]
    exact hnext _
  exact hstep.bind fun _ _ ↦ hclosing _

theorem closed (c : Char) [Text.OneLine (TokenKind.char c).describe]
    (hstep : parser.Recognizes step a word ([.char c] ++ rest) fits)
    (hnext : ∀ n, (parser.skip n).Recognizes (next a) b [] rest True) :
    parser.Recognizes (step >>= fun a ↦ Functor.discard (expectChar c) >>= fun _ ↦ next a) b
      (word ++ [.char c]) rest fits :=
  (bind_closed c hstep hnext).congr (iff_of_eq (and_true _))

end

theorem result {value : Expr} {depth : Nat} {word : List Symbol}
    (hvalue : RecognizesExpression depth value word) (h : parser.Ready) :
    parser.Recognizes (Parser.resultWith (expressionWithin levels)) (.result value)
      (.keyword .result :: (word ++ [.char ';'])) rest (depth ≤ levels) := by
  refine of_head rfl fun hsymbol ↦ (discard_advance hsymbol _).bind_symbol ?_
  refine closed ';' (expression hvalue (h.skip 1) ?_ _) fun _ ↦ pure
  exact ⟨_, _, rfl, by simp [endsExpression]⟩

theorem block {body : Block} {depth : Nat} {word : List Symbol}
    (hbody : RecognizesStatements depth body word) (hdepth : 1 ≤ depth) :
    RecognizesBlock (depth + 1) body (.char '{' :: (word ++ [.char '}'])) := by
  intro levels parser rest h
  have hend : StartsWith (fun kind ↦ isCloser kind) ([.char '}'] ++ rest) :=
    ⟨_, _, rfl, by simp [isCloser_iff]⟩
  have hlist {parser' : Parser} (h' : parser'.Ready) : parser'.Recognizes (statementsWithin levels)
      body word ([.char '}'] ++ rest) (depth + 1 ≤ levels) := by
    cases levels with
    | zero => exact tooDeep (by omega)
    | succ levels =>
      rw [Nat.succ_le_succ_iff]
      exact hbody levels parser' _ h' ⟨_, _, rfl, .inl (by simp [isCloser_iff])⟩ fun _ ↦ .inl hend
  apply (char '{' _).bind_symbol
  exact closed '}' (hlist (h.skip 1)) fun _ ↦ pure

theorem link {condition : Expr} {body : Block} {depth depth' : Nat} {word word' : List Symbol}
    (hcondition : RecognizesExpression depth condition word)
    (hbody : RecognizesBlock depth' body word') (hword' : ∃ tail, word' = .char '{' :: tail)
    (h : parser.Ready) :
    parser.Recognizes (linkWith (expressionWithin levels) (statementsWithin levels))
      ⟨condition, body⟩ (.keyword .branch :: (word ++ word')) rest
      (depth ≤ levels ∧ depth' ≤ levels) := by
  obtain ⟨tail, rfl⟩ := hword'
  apply (expectAs (Symbol.keyword_kind .branch)).bind_symbol
  have hnext : StartsWith (fun kind ↦ endsExpression kind) (.char '{' :: tail ++ rest) :=
    ⟨_, _, rfl, by simp [endsExpression]⟩
  apply (expression hcondition (h.skip 1) hnext _).bind
  intro _ _
  exact (hbody levels _ rest ((h.skip 1).skip _)).bind_last pure

/-! ## Assignments and expression statements -/

theorem advance_lt {α : Type} (next : Unit → Step α) [∀ a, Skips (next a)] (parser : Parser) :
    parser.taken < (leaving ((Functor.discard Parser.advance >>= next) parser)).taken := by
  have hadvance : (leaving (Functor.discard Parser.advance parser)).taken = parser.taken + 1 := by
    rw [discard_apply, advance_apply]
    by_cases hkind : parser.shifted.current.kind = .malformedNumber
    · rw [if_pos hkind]
      rfl
    · rw [if_neg hkind]
      rfl
  have hle := leaving_taken_bind_le (Functor.discard Parser.advance) next parser
  omega

theorem statementWith_apply (expr : Step (Option Expr)) (statements : Step Block) (h : parser.Ready)
    (hform : Tables.default.statements.find? parser.current.kind = none) :
    Parser.statementWith expr statements parser =
      if parser.startsAssignment then (some <$> Parser.assignmentWith expr) parser
      else (expr >>= afterExpression) parser := by
  rw [Parser.statementWith, get_bind_apply, h.tables, hform]
  split <;> rfl

theorem taken_lt_of_name (h : parser.Ready) (hkind : parser.current.kind = .identifier)
    (hlevels : levels ≠ 0) :
    parser.taken < (leaving (expressionWithin levels parser)).taken := by
  have hsymbol : [parser.current.symbol] = [.name parser.current.lexeme] := by
    rw [Token.symbol, hkind, Symbol.name]
  have hvar := (RecognizedOperand.primary (recognizesPrimary_var parser.current.lexeme)).expression
    levels parser [.char ';'] h ⟨_, _, rfl, by simp [endsExpression]⟩ 1
  obtain ⟨hfits, -⟩ | hvar := hvar (by simp [hsymbol]) (by simp [hkind])
  · omega
  · simpa [Nat.succ_le_iff] using hvar

theorem target_apply (hassignment : parser.startsAssignment) :
    Parser.target parser = (Functor.discard Parser.advance >>= fun _ ↦
      Functor.discard Parser.advance >>= fun _ ↦ Pure.pure (some parser.lexer.word)) parser := by
  rw [Parser.target, get_bind_apply, if_pos hassignment]

theorem taken_lt_of_startsAssignment {α : Type} (next : List String → Step α)
    [∀ targets, Skips (next targets)] (h : parser.Ready) (hassignment : parser.startsAssignment) :
    parser.taken < (leaving ((Parser.many Parser.target >>= next) parser)).taken := by
  have htarget : parser.taken < (leaving (Parser.target parser)).taken := by
    rw [target_apply hassignment]
    exact advance_lt _ parser
  exact htarget.trans_le (Reads.progresses_target.leaving_taken_le h next)

theorem leaving_map {α β : Type} (f : α → β) (step : Step α) (parser : Parser) :
    leaving ((f <$> step) parser) = leaving (step parser) := by
  rw [map_apply]
  cases step parser <;> rfl

/-- A name at the start of a statement is taken, whether or not a value is assigned to it. -/
theorem name_taken (h : parser.Ready) (hkind : parser.current.kind = .identifier) :
    levels = 0 ∧ StopsTooDeep (Parser.statementWith (expressionWithin levels)
        (statementsWithin levels) parser) ∨
      parser.taken < (leaving (Parser.statementWith (expressionWithin levels)
        (statementsWithin levels) parser)).taken := by
  rw [statementWith_apply _ _ h (by rw [hkind]; rfl)]
  split
  · next hassignment =>
    right
    rw [leaving_map]
    exact taken_lt_of_startsAssignment (assignTo _) h hassignment
  · by_cases hlevels : levels = 0
    · subst hlevels
      have hdeep : StopsTooDeep (expressionWithin 0 parser) := ⟨_, _, _, rfl⟩
      exact .inl ⟨rfl, hdeep.bind afterExpression⟩
    · right
      have hle := leaving_taken_bind_le (expressionWithin levels) afterExpression parser
      exact (taken_lt_of_name h hkind hlevels).trans_le hle

theorem target_none (h : ¬ parser.startsAssignment) :
    parser.Recognizes Parser.target none [] rest True := by
  apply get
  rw [if_neg h]
  exact pure

theorem target_some (h : parser.Ready) {target : String}
    (hname : parser.current.symbol = .name target)
    (hequals : parser.shifted.current.symbol = .char '=') :
    parser.Recognizes Parser.target (some target) [.name target, .char '='] rest True := by
  have hkind : parser.current.kind = .identifier := congrArg Symbol.kind hname
  have hassignment : parser.startsAssignment :=
    parser.startsAssignment_iff.mpr ⟨hkind, congrArg Symbol.kind hequals⟩
  have hword : parser.lexer.word = target :=
    (h.inStep.word_eq hkind).trans (congrArg Symbol.lexeme hname)
  apply get
  rw [if_pos hassignment, hword]
  exact (discard_advance hname _).bind_symbol ((discard_advance hequals _).bind_last pure)

theorem assignTo {value : Expr} {depth : Nat} {word : List Symbol} {targets : List String}
    (hvalue : RecognizesExpression depth value word) (h : parser.Ready) (hne : targets ≠ [])
    (rest : List Symbol) :
    parser.Recognizes (Parser.assignTo (expressionWithin levels) targets)
      (.assignment targets value) (word ++ [.char ';']) rest (depth ≤ levels) := by
  refine closed ';' (expression hvalue h ?_ _) fun _ ↦ ?_
  · exact ⟨_, _, rfl, by simp [endsExpression]⟩
  · simp only [Stmt.assign, List.isEmpty_iff, hne, if_false, built]
    exact pure

/-- The same for the value of an assignment, in front of which there may be another target. -/
theorem name_taken_after_targets (levels : Nat) {targets : List String} (hne : targets ≠ [])
    (h : parser.Ready) (hkind : parser.current.kind = .identifier) :
    ¬ 1 ≤ levels ∧ StopsTooDeep ((Parser.many Parser.target >>= fun others ↦
        Parser.assignTo (expressionWithin levels) (targets ++ others)) parser) ∨
      parser.taken < (leaving ((Parser.many Parser.target >>= fun others ↦
        Parser.assignTo (expressionWithin levels) (targets ++ others)) parser)).taken := by
  by_cases hassignment : parser.startsAssignment
  · exact .inr (taken_lt_of_startsAssignment _ h hassignment)
  · have hnone : Parser.target parser = .ok none parser := by
      rw [Parser.target, get_bind_apply, if_neg hassignment]
      rfl
    rw [Reads.progresses_target.many_bind_of_none h _ hnone, List.append_nil]
    have hsymbol : [parser.current.symbol] = [.name parser.current.lexeme] := by
      rw [Token.symbol, hkind, Symbol.name]
    have hvar : RecognizesExpression 1 (.var parser.current.lexeme)
        [.name parser.current.lexeme] :=
      (RecognizedOperand.primary (recognizesPrimary_var _)).expression
    exact assignTo hvar h hne [] 1 (by simp [hsymbol]) (by simp [hkind])

/-- An expression is told from an assignment by its second symbol. -/
theorem of_not_assignment {α : Type} {step : Step α} [Skips step] {a : α} {word : List Symbol}
    {fits : Prop} (hstart : StartsAsExpression word)
    (hname : parser.current.kind = .identifier →
      ¬ fits ∧ StopsTooDeep (step parser) ∨ parser.taken < (leaving (step parser)).taken)
    (hstep : startsExpression parser.current.kind → ¬ parser.startsAssignment →
      parser.Recognizes step a (word ++ [.char ';']) rest fits) :
    parser.Recognizes step a (word ++ [.char ';']) rest fits := by
  obtain ⟨first, tail, rfl, hfirst, hsecond⟩ := hstart
  have hstarts (h : parser.current.symbol = first) : startsExpression parser.current.kind := by
    rwa [← h] at hfirst
  obtain ⟨second, tail', htail, hequals⟩ : ∃ second tail',
      tail ++ ([.char ';'] ++ rest) = second :: tail' ∧ second.kind ≠ .char '=' := by
    cases tail with
    | nil => exact ⟨_, _, rfl, by simp⟩
    | cons second tail => exact ⟨_, _, rfl, hsecond second rfl⟩
  have hword : first :: tail ++ [.char ';'] ++ rest = first :: second :: tail' := by
    rw [List.append_assoc, List.cons_append, htail]
  by_cases hkind : first.kind = .identifier
  · refine of_two hword (by simp) (fun h ↦ hname ?_) fun h h' ↦ hstep (hstarts h) ?_
    · rwa [← h] at hkind
    · rw [startsAssignment_iff]
      rintro ⟨-, hkind'⟩
      rw [← h'] at hequals
      exact hequals hkind'
  · refine of_head hword fun h ↦ hstep (hstarts h) ?_
    rw [startsAssignment_iff]
    rintro ⟨hkind', -⟩
    rw [← h] at hkind
    exact hkind hkind'

theorem manyTargets {value : Expr} {depth : Nat} {word : List Symbol} (front targets : List String)
    (hvalue : RecognizesExpression depth value word) (hstart : StartsAsExpression word)
    (hdepth : 1 ≤ depth) (h : parser.Ready) (hne : front ++ targets ≠ [])
    (hfront : front ≠ [] ∨ parser.startsAssignment) :
    parser.Recognizes (Parser.many Parser.target >>= fun others ↦
        Parser.assignTo (expressionWithin levels) (front ++ others))
      (.assignment (front ++ targets) value) (targetSymbols targets ++ (word ++ [.char ';'])) rest
      (depth ≤ levels) := by
  have hname {targets : List String} (hne : targets ≠ []) {parser' : Parser} (h' : parser'.Ready)
      (hkind : parser'.current.kind = .identifier) :=
    (name_taken_after_targets levels hne h' hkind).imp_left
      (And.imp_left fun hlevels hfits ↦ hlevels (hdepth.trans hfits))
  induction targets generalizing parser front with
  | nil =>
    rw [List.append_nil] at hne ⊢
    apply of_not_assignment hstart (hname hne h)
    intro _ hassignment
    apply many_bind_nil Reads.progresses_target h (target_none hassignment)
    rw [List.append_nil]
    exact assignTo hvalue h hne rest
  | cons target targets ih =>
    have hnext (parser' : Parser) (h' : parser'.Ready) : parser'.Recognizes
        (Parser.many Parser.target >>= fun others ↦
          Parser.assignTo (expressionWithin levels) (front ++ target :: others))
        (.assignment (front ++ target :: targets) value)
        (targetSymbols targets ++ (word ++ [.char ';'])) rest (depth ≤ levels) := by
      simpa using ih (front ++ [target]) h' (by simp) (.inl (by simp))
    refine of_two rfl (by simp [targetSymbols]) (fun hsymbol ↦ ?_) fun hsymbol hequals ↦ ?_
    · rcases hfront with hfront | hassignment
      · exact hname hfront h (congrArg Symbol.kind hsymbol)
      · exact .inr (taken_lt_of_startsAssignment _ h hassignment)
    · have htarget : parser.Recognizes Parser.target (some target) [.name target, .char '=']
          (targetSymbols targets ++ (word ++ [.char ';']) ++ rest) True :=
        target_some h hsymbol hequals
      exact (many_bind_cons Reads.progresses_target h htarget fun _ ↦ hnext _ (h.skip _)).congr
        (iff_of_eq (true_and _))

theorem assignment {value : Expr} {depth : Nat} {word : List Symbol} {targets : List String}
    (hne : targets ≠ []) (hvalue : RecognizesExpression depth value word)
    (hstart : StartsAsExpression word) (hdepth : 1 ≤ depth) :
    RecognizesStatement depth (.assignment targets value)
      (targetSymbols targets ++ (word ++ [.char ';'])) := by
  intro levels parser rest h _
  obtain ⟨target, targets, rfl⟩ := List.exists_cons_of_ne_nil hne
  have hform (hsymbol : parser.current.symbol = .name target) :
      Tables.default.statements.find? parser.current.kind = none := by
    rw [← Token.symbol_kind, hsymbol]
    rfl
  refine of_two rfl (by simp [targetSymbols]) (fun hsymbol ↦ ?_) fun hsymbol hequals ↦ ?_
  · exact (name_taken h (congrArg Symbol.kind hsymbol)).imp_left
      (And.imp_left fun hlevels hfits ↦ by omega)
  · have hassignment : parser.startsAssignment :=
      parser.startsAssignment_iff.mpr ⟨congrArg Symbol.kind hsymbol, congrArg Symbol.kind hequals⟩
    have hstmt : parser.Recognizes (Parser.assignmentWith (expressionWithin levels))
        (.assignment (target :: targets) value)
        (targetSymbols (target :: targets) ++ (word ++ [.char ';'])) rest (depth ≤ levels) := by
      rw [assignmentWith_eq]
      exact manyTargets [] _ hvalue hstart hdepth h hne (.inr hassignment)
    refine of_apply ?_ hstmt.map
    rw [statementWith_apply _ _ h (hform hsymbol), if_pos hassignment]

theorem statements_find?_eq_none {kind : TokenKind} (h : startsExpression kind) :
    Tables.default.statements.find? kind = none := by
  rw [Tables.find?_statements]
  split <;> simp_all [startsExpression_iff]

theorem expressionStatement {value : Expr} {depth : Nat} {word : List Symbol}
    (hvalue : RecognizesExpression depth value word) (hstart : StartsAsExpression word)
    (hdepth : 1 ≤ depth) :
    RecognizesStatement depth (.expression value) (word ++ [.char ';']) := by
  intro levels parser rest h _
  refine of_not_assignment hstart (fun hkind ↦ ?_) fun hkind hassignment ↦ ?_
  · exact (name_taken h hkind).imp_left (And.imp_left fun hlevels hfits ↦ by omega)
  · have hexpr : parser.Recognizes (expressionWithin levels) (some value) word ([.char ';'] ++ rest)
        (depth ≤ levels) := hvalue levels parser _ h ⟨_, _, rfl, by simp [endsExpression]⟩
    have hafter {parser' : Parser} : parser'.Recognizes (afterExpression (some value))
        (some (.expression value)) [.char ';'] rest True := (char ';' rest).bind_last pure
    have hstmt : parser.Recognizes (expressionWithin levels >>= afterExpression)
        (some (.expression value)) (word ++ [.char ';']) rest (depth ≤ levels) :=
      (hexpr.bind fun _ _ ↦ hafter).congr (iff_of_eq (and_true _))
    refine of_apply ?_ hstmt
    rw [statementWith_apply _ _ h (statements_find?_eq_none hkind), if_neg hassignment]

theorem nextLink_none (h : parser.current.kind ≠ .keyword .otherwise ∨
      parser.shifted.current.kind ≠ .keyword .branch) {expr : Step (Option Expr)}
    {statements : Step Block} :
    parser.Recognizes (nextLinkWith expr statements) none [] rest True := by
  apply get
  rw [if_neg (by rw [peekKind_eq]; tauto)]
  exact pure

theorem lastBlock_none (h : parser.current.kind ≠ .keyword .otherwise) {statements : Step Block} :
    parser.Recognizes (lastBlockWith statements) none [] rest True := by
  apply get
  rw [if_neg h]
  exact pure

theorem taken_lt_of_otherwise {α : Type} (f : List Link → Option Block → α) (h : parser.Ready)
    (hkind : parser.current.kind = .keyword .otherwise) :
    parser.taken < (leaving (chainAfter (expressionWithin levels) (statementsWithin levels) f
      parser)).taken := by
  have hprogress := progresses_nextLink levels
  by_cases hbranch : parser.current.kind = .keyword .otherwise ∧ parser.peekKind = .keyword .branch
  · have hlink : parser.taken <
        (leaving
          (nextLinkWith (expressionWithin levels) (statementsWithin levels) parser)).taken := by
      rw [nextLinkWith, get_bind_apply, if_pos hbranch]
      exact advance_lt _ parser
    exact hlink.trans_le (hprogress.leaving_taken_le h _)
  · have hnone : nextLinkWith (expressionWithin levels) (statementsWithin levels) parser =
        .ok none parser := by
      rw [nextLinkWith, get_bind_apply, if_neg hbranch]
      rfl
    have hblock : parser.taken <
        (leaving (lastBlockWith (statementsWithin levels) parser)).taken := by
      rw [lastBlockWith, get_bind_apply, if_pos hkind]
      exact advance_lt _ parser
    rw [chainAfter, hprogress.many_bind_of_none h _ hnone]
    exact hblock.trans_le (leaving_taken_bind_le _ _ parser)

theorem otherwise_absent : RecognizesOtherwise 0 .absent [] := by
  rintro α f levels parser rest h ⟨next, tail, rfl, hnext⟩
  apply of_head rfl
  intro hsymbol
  rw [← hsymbol] at hnext
  refine congr ?_ (iff_of_true trivial (Nat.zero_le _))
  apply many_bind_nil (progresses_nextLink levels) h (nextLink_none (.inl hnext))
  exact (lastBlock_none hnext).bind_last pure

theorem otherwise_block {body : Block} {depth : Nat} {word : List Symbol}
    (hbody : RecognizesBlock depth body word) (hword : ∃ tail, word = .char '{' :: tail) :
    RecognizesOtherwise depth (.block body) (.keyword .otherwise :: word) := by
  rintro α f levels parser rest h -
  obtain ⟨tail, rfl⟩ := hword
  refine of_two rfl (by simp) (fun hsymbol ↦ ?_) fun hsymbol hbrace ↦ ?_
  · exact .inr (taken_lt_of_otherwise f h (congrArg Symbol.kind hsymbol))
  · have hkind : parser.current.kind = .keyword .otherwise := congrArg Symbol.kind hsymbol
    have hlast : parser.Recognizes (lastBlockWith (statementsWithin levels)) (some body)
        (.keyword .otherwise :: .char '{' :: tail) rest (depth ≤ levels) := by
      apply get
      rw [if_pos hkind]
      exact (discard_advance hsymbol _).bind_symbol (hbody levels _ rest (h.skip 1)).map
    refine many_bind_nil (progresses_nextLink levels) h (nextLink_none (.inr ?_)) ?_
    · rw [← Token.symbol_kind, hbrace]
      simp
    · exact hlast.bind_last pure

theorem otherwise_elseIf {condition : Expr} {body : Block} {branch : ElseBranch}
    {depth depth' depth'' : Nat} {word word' word'' : List Symbol}
    (hcondition : RecognizesExpression depth condition word)
    (hbody : RecognizesBlock depth' body word') (hword' : ∃ tail, word' = .char '{' :: tail)
    (hbranch : RecognizesOtherwise depth'' branch word'') :
    RecognizesOtherwise (max depth (max depth' depth'')) (.elseIf condition body branch)
      (.keyword .otherwise :: .keyword .branch :: (word ++ (word' ++ word''))) := by
  rintro α f levels parser rest h hrest
  refine of_two rfl (by simp) (fun hsymbol ↦ ?_) fun hsymbol hsecond ↦ ?_
  · exact .inr (taken_lt_of_otherwise f h (congrArg Symbol.kind hsymbol))
  · have hkinds : parser.current.kind = .keyword .otherwise ∧ parser.peekKind = .keyword .branch :=
      ⟨congrArg Symbol.kind hsymbol, congrArg Symbol.kind hsecond⟩
    have hlink : parser.Recognizes
        (nextLinkWith (expressionWithin levels) (statementsWithin levels))
        (some ⟨condition, body⟩) (.keyword .otherwise :: .keyword .branch :: (word ++ word'))
        (word'' ++ rest) (depth ≤ levels ∧ depth' ≤ levels) := by
      apply get
      rw [if_pos hkinds]
      exact (discard_advance hsymbol _).bind_symbol
        (link hcondition hbody hword' (h.skip 1)).map
    have hrest (parser' : Parser) (h' : parser'.Ready) :=
      hbranch α (fun others last ↦ f (⟨condition, body⟩ :: others) last) levels parser' rest h'
        hrest
    rw [← List.append_assoc]
    refine (many_bind_cons (progresses_nextLink levels) h hlink fun _ ↦ hrest _ (h.skip _)).congr ?_
    rw [and_assoc, max_le_iff, max_le_iff]

/-! ## Statements with a word of their own -/

theorem statementForm {expr : Step (Option Expr)} {statements : Step Block} {form : StatementForm}
    {stmt : Stmt} {word : List Symbol} {fits : Prop} (h : parser.Ready)
    (hform : Tables.default.statements.find? parser.current.kind = some form)
    (hstep : parser.Recognizes (statementFormWith expr statements form) stmt word rest fits) :
    parser.Recognizes (Parser.statementWith expr statements) (some stmt) word rest fits := by
  apply get
  rw [h.tables, hform]
  exact hstep.map

theorem resultStatement {value : Expr} {depth : Nat} {word : List Symbol}
    (hvalue : RecognizesExpression depth value word) :
    RecognizesStatement depth (.result value) (.keyword .result :: (word ++ [.char ';'])) := by
  intro levels parser rest h _
  apply of_head rfl
  intro hsymbol
  have hform : Tables.default.statements.find? parser.current.kind = some .result := by
    rw [← Token.symbol_kind, hsymbol]
    rfl
  exact statementForm h hform (result hvalue h)

theorem conditional {condition : Expr} {body : Block} {branch : ElseBranch}
    {depth depth' depth'' : Nat} {word word' word'' : List Symbol}
    (hcondition : RecognizesExpression depth condition word)
    (hbody : RecognizesBlock depth' body word') (hword' : ∃ tail, word' = .char '{' :: tail)
    (hbranch : RecognizesOtherwise depth'' branch word'') :
    RecognizesStatement (max depth (max depth' depth'')) (.conditional condition body branch)
      (.keyword .branch :: (word ++ (word' ++ word''))) := by
  intro levels parser rest h hrest
  apply of_head rfl
  intro hsymbol
  have hform : Tables.default.statements.find? parser.current.kind = some .conditional := by
    rw [← Token.symbol_kind, hsymbol]
    rfl
  have hchain {parser' : Parser} (h' : parser'.Ready) :=
    hbranch Stmt (Stmt.ofLinks ⟨condition, body⟩) levels parser' rest h' hrest
  have hstmt : parser.Recognizes
      (conditionalWith (expressionWithin levels) (statementsWithin levels))
      (.ofLinks ⟨condition, body⟩ branch.links branch.last)
      ((.keyword .branch :: (word ++ word')) ++ word'') rest
      ((depth ≤ levels ∧ depth' ≤ levels) ∧ depth'' ≤ levels) := by
    rw [conditionalWith_eq]
    exact (link hcondition hbody hword' h).bind fun _ _ ↦ hchain (h.skip _)
  rw [Stmt.ofLinks, ElseBranch.ofLinks_links, List.cons_append, List.append_assoc, and_assoc,
    ← max_le_iff, ← max_le_iff] at hstmt
  exact statementForm h hform hstmt

theorem name {name : String} (h : parser.Ready) (expected : String) [Text.OneLine expected]
    (rest : List Symbol) :
    parser.Recognizes (Parser.expectIdentifier expected) name [.name name] rest True := by
  apply of_head rfl
  intro hsymbol
  have hkind : parser.current.kind = .identifier := congrArg Symbol.kind hsymbol
  have hword : parser.lexer.word = name :=
    (h.inStep.word_eq hkind).trans (congrArg Symbol.lexeme hsymbol)
  have hstep : parser.Recognizes
      (Functor.discard Parser.advance >>= fun _ ↦ Pure.pure parser.lexer.word) parser.lexer.word
      [.name name] rest True := (discard_advance hsymbol rest).bind_last pure
  rw [hword] at hstep
  refine of_apply ?_ hstep
  rw [expectIdentifier_apply, if_pos hkind, hword]

theorem loop {index : String} {initial condition step : Expr} {body : Block}
    {depth₁ depth₂ depth₃ depth₄ : Nat} {word₁ word₂ word₃ word₄ : List Symbol}
    (hindex : IsName index) (h₁ : RecognizesExpression depth₁ initial word₁)
    (h₂ : RecognizesExpression depth₂ condition word₂)
    (h₃ : RecognizesExpression depth₃ step word₃) (h₄ : RecognizesBlock depth₄ body word₄) :
    RecognizesStatement (max depth₁ (max depth₂ (max depth₃ depth₄)))
      (.loop index initial condition step body)
      (.keyword .loop :: .char '(' :: .name index :: .char '=' :: (word₁ ++ .char ';' ::
        (word₂ ++ .char ';' :: (word₃ ++ .char ')' :: word₄)))) := by
  intro levels parser rest h _
  apply of_head rfl
  intro hsymbol
  have hform : Tables.default.statements.find? parser.current.kind = some .loop := by
    rw [← Token.symbol_kind, hsymbol]
    rfl
  apply statementForm h hform
  rw [statementFormWith, loopWith_eq]
  refine (discard_advance hsymbol _).bind_symbol ((char '(' _).bind_symbol ?_)
  refine (name ((h.skip 1).skip 1) _ _).bind_symbol ((char '=' _).bind_symbol ?_)
  simp only [skip_skip, max_le_iff]
  rw [loopFrom]
  refine bind_closed ';' (expression h₁ (h.skip _) ?_ _) fun n₁ ↦ ?_
  · exact ⟨_, _, rfl, by simp [endsExpression]⟩
  refine bind_closed ';' (expression h₂ ((h.skip _).skip n₁) ?_ _) fun n₂ ↦ ?_
  · exact ⟨_, _, rfl, by simp [endsExpression]⟩
  refine bind_closed ')' (expression h₃ (((h.skip _).skip n₁).skip n₂) ?_ _) fun n₃ ↦ ?_
  · exact ⟨_, _, rfl, by simp [endsExpression]⟩
  apply (h₄ levels _ rest ((((h.skip _).skip n₁).skip n₂).skip n₃)).bind_last
  simp only [Stmt.forLoop, String.isEmpty_iff, hindex.ne_empty, if_false, built]
  exact pure

theorem not_startsDeclaration_of_isCloser {kind : TokenKind} (h : isCloser kind) :
    ¬ startsDeclaration kind := by
  intro hkind
  rw [startsDeclaration_iff] at hkind
  rcases hkind with rfl | rfl <;> simp [isCloser_iff] at h

theorem not_startsDeclaration_of_startsStatement {kind : TokenKind} (h : startsStatement kind) :
    ¬ startsDeclaration kind := by
  intro hkind
  rw [startsDeclaration_iff] at hkind
  rcases hkind with rfl | rfl <;> simp [startsStatement_iff, startsExpression_iff] at h

theorem statementWith_absent (h : parser.Ready)
    (hrest : StartsWith (fun kind ↦ isCloser kind) rest) :
    parser.Recognizes (Parser.statementWith (expressionWithin levels) (statementsWithin levels))
      none [] rest (1 ≤ levels) := by
  obtain ⟨next, tail, rfl, hnext⟩ := hrest
  apply of_head rfl
  intro hsymbol
  have hcloser : isCloser parser.current.kind := by
    rwa [← hsymbol] at hnext
  have hform : Tables.default.statements.find? parser.current.kind = none := by
    rw [Tables.find?_statements]
    split <;> simp_all [isCloser_iff]
  have hassignment : ¬ parser.startsAssignment := by
    rw [startsAssignment_iff]
    rintro ⟨hkind, -⟩
    simp [hkind, isCloser_iff] at hcloser
  have habsent : parser.Recognizes (expressionWithin levels >>= afterExpression) none []
      (next :: tail) (1 ≤ levels) := (recognizes_absent h ⟨next, tail, rfl, hnext⟩).bind_last pure
  refine of_apply ?_ habsent
  rw [statementWith_apply _ _ h hform, if_neg hassignment]

theorem statementsNil : RecognizesStatements 1 [] [] := by
  rintro levels parser rest h ⟨next, tail, rfl, hnext⟩ hempty
  refine of_head rfl fun hsymbol ↦ many_nil (progresses_nextStatement levels) h (get ?_)
  rw [← hsymbol] at hnext
  split
  · next hdeclaration =>
    have hlevels : 1 ≤ levels := by
      apply (hempty rfl).resolve_left
      rintro ⟨other, tail', heq, hcloser⟩
      obtain ⟨rfl, rfl⟩ := List.cons.inj heq
      rw [← hsymbol] at hcloser
      exact not_startsDeclaration_of_isCloser hcloser hdeclaration
    exact pure.congr (iff_of_true trivial hlevels)
  · next hdeclaration =>
    have hcloser := hnext.resolve_right hdeclaration
    rw [Token.symbol_kind] at hcloser
    refine statementWith_absent h ⟨next, tail, rfl, ?_⟩
    rwa [← hsymbol]

theorem statementsCons {stmt : Stmt} {body : Block} {depth depth' : Nat} {word word' : List Symbol}
    (hstmt : RecognizesStatement depth stmt word) (hdepth : 1 ≤ depth)
    (hstart : ∃ first tail, word = first :: tail ∧ startsStatement first.kind)
    (hbody : RecognizesStatements depth' body word')
    (hnext : body = [] ∧ word' = [] ∨
      ∃ first tail, word' = first :: tail ∧ startsStatement first.kind) :
    RecognizesStatements (max depth depth') (stmt :: body) (word ++ word') := by
  intro levels parser rest h hrest _
  have hfollow : StartsWith (· ≠ .keyword .otherwise) (word' ++ rest) := by
    obtain ⟨rfl, rfl⟩ | ⟨first, tail, rfl, hfirst⟩ := hnext
    · obtain ⟨next, tail, rfl, hnext⟩ := hrest
      refine ⟨next, tail, rfl, ?_⟩
      intro hkind
      simp [hkind, isCloser_iff, startsDeclaration_iff] at hnext
    · refine ⟨first, tail ++ rest, rfl, ?_⟩
      intro hkind
      simp [hkind, startsStatement_iff, startsExpression_iff] at hfirst
  have hstep : parser.Recognizes
      (nextStatementWith (expressionWithin levels) (statementsWithin levels)) (some stmt) word
      (word' ++ rest) (depth ≤ levels) := by
    obtain ⟨first, tail, rfl, hfirst⟩ := hstart
    refine of_head rfl fun hsymbol ↦ get ?_
    have hdeclaration : ¬ startsDeclaration parser.current.kind := by
      rw [← hsymbol] at hfirst
      exact not_startsDeclaration_of_startsStatement hfirst
    rw [if_neg hdeclaration]
    exact hstmt levels parser _ h hfollow
  rw [max_le_iff]
  apply many_cons (progresses_nextStatement levels) h hstep
  intro hfits
  exact hbody levels _ rest (h.skip _) hrest fun _ ↦ .inr (hdepth.trans hfits)

end Recognizes

end Parser

/-- The phrase is recognized by the step that is named for it. -/
def Phrase.Recognized (depth : Nat) : Phrase → List Symbol → Prop
  | .operand level expr, word => Parser.RecognizedOperand level depth expr word
  | .expression expr, word => Parser.RecognizesExpression depth expr word
  | .arguments args, word => Parser.RecognizedArguments depth args word
  | .statement stmt, word => Parser.RecognizesStatement depth stmt word
  | .statements body, word => Parser.RecognizesStatements depth body word
  | .block body, word => Parser.RecognizesBlock depth body word
  | .otherwise branch, word => Parser.RecognizesOtherwise depth branch word

theorem startsStatement_of_derives {depth : Nat} {body : Block} {word : List Symbol}
    (h : Derives depth (.statements body) word) :
    body = [] ∧ word = [] ∨ ∃ first tail, word = first :: tail ∧ startsStatement first.kind := by
  cases h with
  | noStatement => exact .inl ⟨rfl, rfl⟩
  | statements hstmt =>
    obtain ⟨first, tail, rfl, hfirst⟩ := hstmt.startsRight
    exact .inr ⟨first, _, rfl, hfirst⟩

/-- Every derivation is recognized with as many levels as it is deep. -/
theorem Derives.recognized {depth : Nat} {phrase : Phrase} {word : List Symbol}
    (h : Derives depth phrase word) : phrase.Recognized depth word := by
  induction h with
  | number _ => exact .primary (Parser.recognizesPrimary_number _)
  | var _ => exact .primary (Parser.recognizesPrimary_var _)
  | emptyCall _ => exact .primary (Parser.recognizesPrimary_emptyCall _)
  | call _ _ ih => exact .primary (Parser.recognizesPrimary_call _ ih)
  | parenthesised _ ih => exact .primary (Parser.recognizesPrimary_parenthesised ih)
  | tighter _ ih => exact Parser.RecognizedOperand.tighter ih
  | binary _ _ ihleft ihright => exact Parser.RecognizedOperand.binary ihleft ihright
  | expression _ ih => exact Parser.RecognizedOperand.expression ih
  | argument _ ih => exact .last ih
  | arguments _ _ ih ihargs => exact .cons ih ihargs
  | assignment hne _ hvalue ih =>
    exact Parser.Recognizes.assignment hne ih hvalue.startsRight (hvalue.one_le rfl)
  | result _ ih => exact Parser.Recognizes.resultStatement ih
  | conditional _ hbody _ ih ihbody ihbranch =>
    exact Parser.Recognizes.conditional ih ihbody hbody.startsRight ihbranch
  | loop hindex _ _ _ _ ih₁ ih₂ ih₃ ih₄ => exact Parser.Recognizes.loop hindex ih₁ ih₂ ih₃ ih₄
  | expressionStatement hvalue ih =>
    exact Parser.Recognizes.expressionStatement ih hvalue.startsRight (hvalue.one_le rfl)
  | absent => exact Parser.Recognizes.otherwise_absent
  | elseIf _ hbody _ ih ihbody ihbranch =>
    exact Parser.Recognizes.otherwise_elseIf ih ihbody hbody.startsRight ihbranch
  | elseBlock hbody ih => exact Parser.Recognizes.otherwise_block ih hbody.startsRight
  | noStatement => exact Parser.Recognizes.statementsNil
  | statements hstmt hbody ih ihbody =>
    exact Parser.Recognizes.statementsCons ih (hstmt.one_le rfl) hstmt.startsRight ihbody
      (startsStatement_of_derives hbody)
  | block hbody ih => exact Parser.Recognizes.block ih (hbody.one_le rfl)

end ExprLang
