import ExprLang.Proofs.ReadingExpressions

/-!
# Reading Statements Reads the Grammar

Like the steps for expressions, the steps for statements are given over the steps that read
expressions and lists one level deeper, and so are their laws.
-/

namespace ExprLang

theorem viable_statement : Viable (fun stmt ↦ Spells (.statement stmt)) [] :=
  viable_expression.extend fun _ _ hexpr ↦ ⟨_, [.char ';'], hexpr.expressionStatement⟩

theorem viable_block : Viable (fun body ↦ Spells (.block body)) [] :=
  ⟨[], _, Spells.block ⟨1, .noStatement⟩⟩

theorem viable_head : Viable SpellsHead [.keyword .branch] := by
  obtain ⟨condition, word, hcondition⟩ := viable_expression
  obtain ⟨body, word', hbody⟩ := viable_block
  exact ⟨⟨condition, body⟩, word ++ word', word, word', rfl, hcondition, hbody⟩

section

variable {index : String} {initial condition step : Expr} {word₁ word₂ word₃ : List Symbol}

/-- Each part of a loop that is still to be read can be added to what has been read so far. -/
theorem viable_loopFrom_body (hindex : IsName index) (h₁ : Spells (.expression initial) word₁)
    (h₂ : Spells (.expression condition) word₂) (h₃ : Spells (.expression step) word₃) :
    Viable (SpellsLoopFrom index)
      (word₁ ++ .char ';' :: (word₂ ++ .char ';' :: (word₃ ++ [.char ')']))) :=
  viable_block.extend fun _ _ h₄ ↦ ⟨_, [], by simpa using spells_loopFrom hindex h₁ h₂ h₃ h₄⟩

theorem viable_loopFrom_step (hindex : IsName index) (h₁ : Spells (.expression initial) word₁)
    (h₂ : Spells (.expression condition) word₂) :
    Viable (SpellsLoopFrom index) (word₁ ++ .char ';' :: (word₂ ++ [.char ';'])) :=
  viable_expression.extend fun _ _ h₃ ↦
    Viable.of_append (by simpa using viable_loopFrom_body hindex h₁ h₂ h₃)

theorem viable_loopFrom_condition (hindex : IsName index)
    (h₁ : Spells (.expression initial) word₁) :
    Viable (SpellsLoopFrom index) (word₁ ++ [.char ';']) :=
  viable_expression.extend fun _ _ h₂ ↦
    Viable.of_append (by simpa using viable_loopFrom_step hindex h₁ h₂)

theorem viable_loopFrom (hindex : IsName index) : Viable (SpellsLoopFrom index) [] :=
  viable_expression.extend fun _ _ h₁ ↦ Viable.of_append (viable_loopFrom_condition hindex h₁)

end

/-! ## Reading statements -/

namespace Parser

variable {parser : Parser} {bound levels : Nat}

/-- The step reads statement lists.  The first expression of a list may need all levels but one. -/
def ReadsStatements (statements : Step Block) (levels : Nat) : Prop :=
  ∀ (parser : Parser) (bound : Nat), parser.Ready → bound ≤ parser.taken + (levels - 1) →
    parser.Reads statements (fun body ↦ Spells (.statements body)) bound

theorem peekKind_eq (parser : Parser) : parser.peekKind = parser.shifted.current.kind := rfl

theorem startsAssignment_iff (parser : Parser) : parser.startsAssignment ↔
    parser.current.kind = .identifier ∧ parser.shifted.current.kind = .char '=' := by
  rw [startsAssignment, peekKind_eq, Bool.and_eq_true, decide_eq_true_iff, decide_eq_true_iff]

/-- A chain that is built link by link is the chain of its links. -/
theorem iterate_extendWith (expr : Step (Option Expr)) (statements : Step Block) :
    iterate (extendWith expr statements) .absent =
      (ElseBranch.ofLinks · none) <$> many (nextLinkWith expr statements) := by
  have hfoldl := iterate_map_eq ElseBranch.attachLink (nextLinkWith expr statements) .absent
  have hlinks : List.foldl ElseBranch.attachLink .absent = (ElseBranch.ofLinks · none) :=
    funext (ElseBranch.foldl_attachLink [])
  rw [← hlinks]
  exact hfoldl

theorem conditionalWith_eq (expr : Step (Option Expr)) (statements : Step Block) :
    conditionalWith expr statements = (do
      let first ← linkWith expr statements
      let others ← many (nextLinkWith expr statements)
      let last ← lastBlockWith statements
      pure (.ofLinks first others last)) := by
  simp only [conditionalWith, iterate_extendWith, map_eq_pure_bind, bind_assoc, pure_bind,
    ElseBranch.attachLast_ofLinks, Stmt.ofLinks]

namespace Reads

theorem target (h : parser.Ready) :
    parser.Reads Parser.target (Maybe (¬ parser.startsAssignment) SpellsTarget) bound := by
  apply get
  split
  · next hassignment =>
    obtain ⟨hname, hequals⟩ := parser.startsAssignment_iff.mp hassignment
    have hspells : SpellsTarget parser.lexer.word [parser.current.symbol, .char '='] := by
      rw [h.inStep.word_eq hname]
      exact ⟨h.isName hname, by rw [Token.symbol, hname, Symbol.name]⟩
    apply (advance parser bound).discard.bind_word ⟨some _, [.char '='], hspells⟩
    intro _ n hn
    obtain rfl : n = 1 := hn
    exact (takeChar (h.skip 1) hequals bound).bind_word ⟨some _, [], hspells⟩
      fun _ n hn ↦ pure hspells
  · next hassignment => exact pure ⟨hassignment, rfl⟩

theorem progresses_target : Progresses Parser.target := by
  refine progresses _ (fun parser h ↦ target h) ?_
  rintro name word ⟨-, rfl⟩
  exact ⟨_, _, rfl, by simp⟩

theorem ne_nil_of_startsAssignment (h : parser.Ready) (hassignment : parser.startsAssignment)
    {parser' : Parser} {targets : List String}
    (hmany : Parser.many Parser.target parser = .ok targets parser') : targets ≠ [] := by
  rintro rfl
  obtain ⟨last, -, hstop, hlast⟩ := progresses_target.exists_stop h hmany
  rw [hlast rfl] at hstop
  have htarget : parser.Reads Parser.target (Maybe (¬ parser.startsAssignment) SpellsTarget) 0 :=
    target h
  obtain ⟨n, -, hnone⟩ := htarget.exists_of_ok hstop
  exact hnone.1 hassignment

variable {expr : Step (Option Expr)} {statements : Step Block}

theorem assignmentWith (hexpr : ReadsExpressions expr levels) (h : parser.Ready)
    (hbound : bound ≤ parser.taken + levels) (hassignment : parser.startsAssignment) :
    parser.Reads (Parser.assignmentWith expr) (fun stmt ↦ Spells (.statement stmt)) bound := by
  have htargets : parser.Reads (Parser.many Parser.target) (Chain SpellsTarget) bound :=
    many (fun n ↦ ¬ (parser.skip n).startsAssignment) fun n ↦ target (h.skip n)
  refine htargets.bind_of_eq (fun n hword ↦ hword.mono ?_) ?_
  · intro targets word hchain
    cases targets with
    | nil =>
      cases hchain
      exact viable_statement
    | cons target targets =>
      exact viable_expression.extend fun value word' hvalue ↦
        ⟨_, [.char ';'], by simpa using Spells.assignment (by simp) hchain hvalue⟩
  · intro targets n heq hchain
    have hne := ne_nil_of_startsAssignment h hassignment heq
    refine (requiredWith hexpr (h.skip n) (le_skip_taken_add hbound n) _).closed (h.skip n) ';' ?_
    intro value word hvalue
    refine ⟨.assignment targets value, ?_, Spells.assignment hne hchain hvalue⟩
    simp [Stmt.assign, hne, built]

theorem resultWith (hexpr : ReadsExpressions expr levels) (h : parser.Ready)
    (hbound : bound ≤ parser.taken + levels) (hkind : parser.current.kind = .keyword .result) :
    parser.Reads (Parser.resultWith expr) (fun stmt ↦ Spells (.statement stmt)) bound := by
  refine (takeKeyword h hkind bound).bind_word ?_ fun _ n _ ↦ ?_
  · apply viable_expression.extend
    intro value word hvalue
    exact ⟨_, [.char ';'], by simpa using hvalue.result⟩
  · refine (requiredWith hexpr (h.skip n) (le_skip_taken_add hbound n) _).closed (h.skip n) ';' ?_
    exact fun value word hvalue ↦ ⟨_, rfl, hvalue.result⟩

theorem blockWith (hstatements : ReadsStatements statements levels) (h : parser.Ready)
    (hbound : bound ≤ parser.taken + levels) :
    parser.Reads (Parser.blockWith statements) (fun body ↦ Spells (.block body)) bound := by
  refine (expectChar h '{' bound).bind_word ⟨[], [.char '}'], ?_⟩ fun _ n hn ↦ ?_
  · exact Spells.block ⟨1, .noStatement⟩
  · refine (hstatements _ _ (h.skip n) ?_).closed (h.skip n) '}' ?_
    · simp only [skip_taken, hn, List.length_singleton]
      omega
    · exact fun body word hbody ↦ ⟨_, rfl, hbody.block⟩

theorem linkWith (hexpr : ReadsExpressions expr levels)
    (hstatements : ReadsStatements statements levels) (h : parser.Ready)
    (hbound : bound ≤ parser.taken + levels) :
    parser.Reads (Parser.linkWith expr statements) SpellsHead bound := by
  apply (expectKeyword h .branch bound).bind_word viable_head
  intro _ n _
  have hbound' := le_skip_taken_add hbound n
  refine (requiredWith hexpr (h.skip n) hbound' _).bind ?_ ?_
  · intro condition word hcondition
    obtain ⟨body, word', hbody⟩ := viable_block
    exact ⟨⟨condition, body⟩, word', word, word', rfl, hcondition, hbody⟩
  · intro condition m hcondition
    refine (blockWith hstatements ((h.skip n).skip m) (le_skip_taken_add hbound' m)).bind ?_ ?_
    · exact fun body word hbody ↦ ⟨⟨condition, body⟩, [], _, _, by simp, hcondition, hbody⟩
    · exact fun body k hbody ↦ pure ⟨_, _, by simp, hcondition, hbody⟩

theorem nextLinkWith (hexpr : ReadsExpressions expr levels)
    (hstatements : ReadsStatements statements levels) (h : parser.Ready)
    (hbound : bound ≤ parser.taken + levels) :
    parser.Reads (Parser.nextLinkWith expr statements) (Maybe True SpellsLink) bound := by
  apply get
  split
  · next hkinds =>
    refine (takeKeyword h hkinds.1 bound).bind_word ?_ fun _ n _ ↦ ?_
    · obtain ⟨link, word, hlink⟩ := viable_head
      exact ⟨some link, .keyword .branch :: word, _, rfl, hlink⟩
    · exact (linkWith hexpr hstatements (h.skip n) (le_skip_taken_add hbound n)).map
        fun link word hlink ↦ ⟨word, rfl, hlink⟩
  · exact pure ⟨trivial, rfl⟩

theorem progresses_nextLinkWith (hexpr : ReadsExpressions expr levels)
    (hstatements : ReadsStatements statements levels) :
    Progresses (Parser.nextLinkWith expr statements) := by
  refine progresses _ (fun parser h ↦ nextLinkWith hexpr hstatements h (Nat.zero_le _)) ?_
  rintro link word ⟨rest, rfl, -⟩
  exact ⟨_, _, rfl, by simp⟩

theorem lastBlockWith (hstatements : ReadsStatements statements levels) (h : parser.Ready)
    (hbound : bound ≤ parser.taken + levels) :
    parser.Reads (Parser.lastBlockWith statements) (Maybe True SpellsElse) bound := by
  apply get
  split
  · next hkind =>
    refine (takeKeyword h hkind bound).bind_word ?_ fun _ n _ ↦ ?_
    · obtain ⟨body, word, hbody⟩ := viable_block
      exact ⟨some body, word, word, rfl, hbody⟩
    · exact (blockWith hstatements (h.skip n) (le_skip_taken_add hbound n)).map
        fun body word hbody ↦ ⟨word, rfl, hbody⟩
  · exact pure ⟨trivial, rfl⟩

theorem conditionalWith (hexpr : ReadsExpressions expr levels)
    (hstatements : ReadsStatements statements levels) (h : parser.Ready)
    (hbound : bound ≤ parser.taken + levels) :
    parser.Reads (Parser.conditionalWith expr statements) (fun stmt ↦ Spells (.statement stmt))
      bound := by
  rw [conditionalWith_eq]
  refine (linkWith hexpr hstatements h hbound).bind ?_ ?_
  · exact fun first word hfirst ↦ ⟨_, [], spells_ofLinks hfirst .nil spells_absent⟩
  · intro first n hfirst
    have hbound' := le_skip_taken_add hbound n
    have hmany : (parser.skip n).Reads (Parser.many (Parser.nextLinkWith expr statements))
        (Chain SpellsLink) bound :=
      many (fun _ ↦ True) fun m ↦
        nextLinkWith hexpr hstatements ((h.skip n).skip m) (le_skip_taken_add hbound' m)
    refine hmany.bind ?_ ?_
    · exact fun others word hothers ↦
        ⟨_, [], by simpa using spells_ofLinks hfirst hothers spells_absent⟩
    · intro others m hothers
      have hspells {last : Option Block} {word : List Symbol}
          (hlast : Maybe True SpellsElse last word) :
          Spells (.statement (.ofLinks first others last)) (parser.ahead n ++
            ((parser.skip n).ahead m ++ word)) := by
        cases last with
        | none =>
          rw [hlast.2]
          exact spells_ofLinks hfirst hothers spells_absent
        | some body => exact spells_ofLinks hfirst hothers (SpellsElse.otherwise hlast)
      refine (lastBlockWith hstatements ((h.skip n).skip m) (le_skip_taken_add hbound' m)).bind
        ?_ ?_
      · exact fun last word hlast ↦ ⟨_, [], by simpa using hspells hlast⟩
      · exact fun last k hlast ↦ pure (by simpa using hspells hlast)

theorem loopFrom {index : String} (hindex : IsName index) (hexpr : ReadsExpressions expr levels)
    (hstatements : ReadsStatements statements levels) (h : parser.Ready)
    (hbound : bound ≤ parser.taken + levels) :
    parser.Reads (Parser.loopFrom expr statements index) (SpellsLoopFrom index) bound := by
  refine (requiredWith hexpr h hbound _).bind_closed h ';' ?_ ?_
  · exact fun initial word h₁ ↦ viable_loopFrom_condition hindex h₁
  intro initial n₁ word₁ h₁
  refine (requiredWith hexpr (h.skip _) (le_skip_taken_add hbound _) _).bind_closed (h.skip _) ';'
    ?_ ?_
  · intro condition word h₂
    simpa [Viable] using viable_loopFrom_step hindex h₁ h₂
  intro condition n₂ word₂ h₂
  rw [skip_skip]
  refine (requiredWith hexpr (h.skip _) (le_skip_taken_add hbound _) _).bind_closed (h.skip _) ')'
    ?_ ?_
  · intro step word h₃
    simpa [Viable] using viable_loopFrom_body hindex h₁ h₂ h₃
  intro step n₃ word₃ h₃
  rw [skip_skip]
  refine (blockWith hstatements (h.skip _) (le_skip_taken_add hbound _)).bind ?_ ?_
  · exact fun body word h₄ ↦ ⟨_, [], by simpa using spells_loopFrom hindex h₁ h₂ h₃ h₄⟩
  · intro body n₄ h₄
    simp only [Stmt.forLoop, String.isEmpty_iff, hindex.ne_empty, if_false, built]
    exact pure (by simpa using spells_loopFrom hindex h₁ h₂ h₃ h₄)

theorem loopWith (hexpr : ReadsExpressions expr levels)
    (hstatements : ReadsStatements statements levels) (h : parser.Ready)
    (hbound : bound ≤ parser.taken + levels) (hkind : parser.current.kind = .keyword .loop) :
    parser.Reads (Parser.loopWith expr statements) (fun stmt ↦ Spells (.statement stmt)) bound := by
  -- Until the variable is read, any loop completes the words.
  obtain ⟨stmt, rest, hstmt⟩ := viable_loopFrom isName_x
  rw [Parser.loopWith_eq]
  apply (takeKeyword h hkind bound).bind_word ⟨stmt, _, hstmt⟩
  intro _ n _
  apply (expectChar (h.skip n) '(' bound).bind_word ⟨stmt, _, hstmt⟩
  intro _ n₁ _
  refine (expectIdentifier ((h.skip n).skip n₁) _ bound).bind ?_ ?_
  · rintro index word ⟨hindex, rfl⟩
    obtain ⟨stmt, rest, hstmt⟩ := viable_loopFrom hindex
    exact ⟨stmt, .char '=' :: rest, hstmt⟩
  rintro index n₂ ⟨hindex, hword⟩
  obtain ⟨stmt, rest, hstmt⟩ := viable_loopFrom hindex
  rw [hword]
  refine (expectChar (((h.skip n).skip n₁).skip n₂) '=' bound).bind_word ⟨stmt, _, hstmt⟩ ?_
  intro _ n₃ _
  simp only [skip_skip]
  exact loopFrom hindex hexpr hstatements (h.skip _) (le_skip_taken_add hbound _)

theorem statementFormWith {form : StatementForm} (hexpr : ReadsExpressions expr levels)
    (hstatements : ReadsStatements statements levels) (h : parser.Ready)
    (hbound : bound ≤ parser.taken + levels)
    (hform : Tables.default.statements.find? parser.current.kind = some form) :
    parser.Reads (Parser.statementFormWith expr statements form)
      (fun stmt ↦ Spells (.statement stmt)) bound := by
  rw [Tables.find?_statements] at hform
  split at hform
  · next hkind =>
    obtain rfl := Option.some.inj hform
    exact resultWith hexpr h hbound hkind
  · next hkind =>
    obtain rfl := Option.some.inj hform
    exact conditionalWith hexpr hstatements h hbound
  · next hkind =>
    obtain rfl := Option.some.inj hform
    exact loopWith hexpr hstatements h hbound hkind
  · cases hform

/-- A statement may be left out where an expression may. -/
theorem statementWith (hexpr : ReadsExpressions expr levels)
    (hstatements : ReadsStatements statements levels) (h : parser.Ready)
    (hbound : bound ≤ parser.taken + levels) :
    parser.Reads (Parser.statementWith expr statements)
      (Maybe (isCloser parser.current.kind) fun stmt ↦ Spells (.statement stmt)) bound := by
  have hsome {step : Step Stmt}
      (hstep : parser.Reads step (fun stmt ↦ Spells (.statement stmt)) bound) :
      parser.Reads (some <$> step)
        (Maybe (isCloser parser.current.kind) fun stmt ↦ Spells (.statement stmt)) bound :=
    hstep.map fun _ _ hstmt ↦ hstmt
  apply get
  split
  · next form hform =>
    rw [h.tables] at hform
    exact hsome (statementFormWith hexpr hstatements h hbound hform)
  · split
    · next hassignment => exact hsome (assignmentWith hexpr h hbound hassignment)
    · refine (hexpr parser bound h hbound).bind ?_ ?_
      · intro result word hresult
        cases result with
        | none => exact ⟨none, [], hresult.1, by simp [hresult.2]⟩
        | some value =>
          have hvalue : Spells (.expression value) word := hresult
          exact ⟨some _, [.char ';'], hvalue.expressionStatement⟩
      · intro result n hresult
        cases result with
        | none => exact pure ⟨hresult.1, by simp [hresult.2]⟩
        | some value =>
          have hvalue : Spells (.expression value) (parser.ahead n) := hresult
          have hspells := hvalue.expressionStatement
          exact (expectChar (h.skip n) ';' bound).bind_word ⟨some _, [], by simpa using hspells⟩
            fun _ m _ ↦ pure hspells

theorem nextStatementWith (hexpr : ReadsExpressions expr levels)
    (hstatements : ReadsStatements statements levels) (h : parser.Ready)
    (hbound : bound ≤ parser.taken + levels) :
    parser.Reads (Parser.nextStatementWith expr statements)
      (Maybe (isCloser parser.current.kind ∨ startsDeclaration parser.current.kind)
        fun stmt ↦ Spells (.statement stmt)) bound := by
  apply get
  split
  · next hdeclaration => exact pure ⟨.inr hdeclaration, rfl⟩
  · refine (statementWith hexpr hstatements h hbound).mono ?_ le_rfl
    intro result word hresult
    cases result with
    | none => exact ⟨.inl hresult.1, hresult.2⟩
    | some stmt => exact hresult

theorem progresses_nextStatementWith (hexpr : ReadsExpressions expr levels)
    (hstatements : ReadsStatements statements levels) :
    Progresses (Parser.nextStatementWith expr statements) := by
  refine progresses _ (fun parser h ↦ nextStatementWith hexpr hstatements h (Nat.zero_le _)) ?_
  rintro stmt word ⟨depth, hstmt⟩
  obtain ⟨first, rest, rfl, hfirst⟩ := hstmt.startsRight
  refine ⟨first, rest, rfl, ?_⟩
  intro hend
  simp [hend, startsStatement_iff, startsExpression_iff] at hfirst

end Reads

/-- A statement list within a number of levels, its own included. -/
theorem readsStatements_statementsWithin (levels : Nat) :
    ReadsStatements (statementsWithin levels) levels := by
  induction levels with
  | zero => exact fun parser bound _ hbound ↦ Reads.tooDeep ⟨[], [], 1, .noStatement⟩ hbound
  | succ levels ih =>
    intro parser bound h hbound
    have hmany : parser.Reads (statementsWithin (levels + 1))
        (Chain fun stmt ↦ Spells (.statement stmt)) bound :=
      Reads.many _ fun n ↦ Reads.nextStatementWith
        (readsExpressions_expressionWithin levels) ih (h.skip n) (le_skip_taken_add hbound n)
    exact hmany.mono (fun body word hbody ↦ spells_statements hbody) le_rfl

theorem progresses_nextLink (levels : Nat) :
    Progresses (nextLinkWith (expressionWithin levels) (statementsWithin levels)) :=
  Reads.progresses_nextLinkWith (readsExpressions_expressionWithin levels)
    (readsStatements_statementsWithin levels)

theorem progresses_nextStatement (levels : Nat) :
    Progresses (nextStatementWith (expressionWithin levels) (statementsWithin levels)) :=
  Reads.progresses_nextStatementWith (readsExpressions_expressionWithin levels)
    (readsStatements_statementsWithin levels)

/-- A list goes on up to a token that closes something or starts a declaration. -/
theorem statementsWithin_stops (h : parser.Ready) {body : Block} {parser' : Parser}
    (heq : statementsWithin levels parser = .ok body parser') :
    isCloser parser'.current.kind ∨ startsDeclaration parser'.current.kind := by
  cases levels with
  | zero => cases heq
  | succ levels =>
    have hexpr := readsExpressions_expressionWithin levels
    have hstatements := readsStatements_statementsWithin levels
    obtain ⟨last, hlast, hstop, -⟩ :=
      (Reads.progresses_nextStatementWith hexpr hstatements).exists_stop h heq
    obtain ⟨n, rfl, hnone⟩ :=
      (Reads.nextStatementWith hexpr hstatements hlast (Nat.zero_le _)).exists_of_ok hstop
    obtain rfl : n = 0 := length_of_ahead_eq hnone.2
    exact hnone.1

end Parser

end ExprLang
