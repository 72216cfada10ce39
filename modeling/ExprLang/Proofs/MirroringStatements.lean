import ExprLang.Proofs.MirroringExpressions
import ExprLang.Proofs.ReadingStatements

/-!
# Statements Side by Side

The steps for statements mirror each other at twins.  A statement list opens a level of its own, so
the induction is again on the levels of the first parser.
-/

namespace ExprLang.Parser

variable {naming : String → String} {parser twin : Parser} {levels levels' : Nat}

theorem Twins.startsAssignment_eq (h : parser.Twins naming twin) :
    twin.startsAssignment = parser.startsAssignment := by
  rw [startsAssignment, startsAssignment, h.kind_eq, h.peekKind_eq]

theorem Twins.find?_statements (h : parser.Twins naming twin) :
    twin.tables.statements.find? twin.current.kind =
      parser.tables.statements.find? parser.current.kind := by
  rw [h.ready.tables, h.ready'.tables, h.kind_eq]

/-- From the twins on, statement lists within the given numbers of levels mirror each other. -/
def MirrorsStatements (naming : String → String) (parser twin : Parser) (levels levels' : Nat) :
    Prop :=
  ∀ n, (parser.skip n).Mirrors (twin.skip n) (Block.rename naming) (statementsWithin levels)
    (statementsWithin levels')

theorem MirrorsStatements.skip (hlists : MirrorsStatements naming parser twin levels levels')
    (n : Nat) : MirrorsStatements naming (parser.skip n) (twin.skip n) levels levels' := by
  intro m
  rw [skip_skip, skip_skip]
  exact hlists (n + m)

namespace Mirrors

theorem target (h : parser.Twins naming twin) :
    parser.Mirrors twin (Option.map naming) Parser.target Parser.target := by
  refine get (ite (by rw [h.startsAssignment_eq]) (fun hassignment ↦ ?_) fun _ ↦ pure rfl)
  refine (advance h).bind fun _ n _ _ ↦ (advance (h.skip n)).bind fun _ _ _ _ ↦ pure ?_
  rw [h.word_eq (parser.startsAssignment_iff.mp hassignment).1]
  rfl

theorem assignmentWith (h : parser.Twins naming twin)
    (hexpr : MirrorsExpressions naming parser twin levels levels') :
    parser.Mirrors twin (Stmt.rename naming) (Parser.assignmentWith (expressionWithin levels))
      (Parser.assignmentWith (expressionWithin levels')) := by
  have htargets := many Reads.progresses_target Reads.progresses_target h fun n ↦ target (h.skip n)
  apply htargets.bind
  intro targets n _ _
  apply (requiredWith (hexpr.skip n) _).bind_closed (h.skip n) ';'
  intro value _
  rw [Stmt.assign_rename]
  exact built _

theorem resultWith (h : parser.Twins naming twin)
    (hexpr : MirrorsExpressions naming parser twin levels levels') :
    parser.Mirrors twin (Stmt.rename naming) (Parser.resultWith (expressionWithin levels))
      (Parser.resultWith (expressionWithin levels')) := by
  apply (advance h).bind
  intro _ n _ _
  exact (requiredWith (hexpr.skip n) _).bind_closed (h.skip n) ';' fun _ _ ↦ pure rfl

theorem blockWith (h : parser.Twins naming twin)
    (hlists : MirrorsStatements naming parser twin levels levels') :
    parser.Mirrors twin (Block.rename naming) (Parser.blockWith (statementsWithin levels))
      (Parser.blockWith (statementsWithin levels')) := by
  apply (expectChar h '{').bind
  intro _ n _ _
  exact (hlists n).bind_closed (h.skip n) '}' fun _ _ ↦ pure rfl

theorem linkWith (h : parser.Twins naming twin)
    (hexpr : MirrorsExpressions naming parser twin levels levels')
    (hlists : MirrorsStatements naming parser twin levels levels') :
    parser.Mirrors twin (Link.rename naming)
      (Parser.linkWith (expressionWithin levels) (statementsWithin levels))
      (Parser.linkWith (expressionWithin levels') (statementsWithin levels')) := by
  refine (expectAs h _ _).bind fun _ n _ _ ↦ (requiredWith (hexpr.skip n) _).bind fun _ m _ _ ↦ ?_
  refine (blockWith ((h.skip n).skip m) ((hlists.skip n).skip m)).bind fun _ _ _ _ ↦ pure rfl

theorem nextLinkWith (h : parser.Twins naming twin)
    (hexpr : MirrorsExpressions naming parser twin levels levels')
    (hlists : MirrorsStatements naming parser twin levels levels') :
    parser.Mirrors twin (Option.map (Link.rename naming))
      (Parser.nextLinkWith (expressionWithin levels) (statementsWithin levels))
      (Parser.nextLinkWith (expressionWithin levels') (statementsWithin levels')) := by
  refine get (ite (by rw [h.kind_eq, h.peekKind_eq]) (fun _ ↦ ?_) fun _ ↦ pure rfl)
  apply (advance h).bind
  intro _ n _ _
  exact (linkWith (h.skip n) (hexpr.skip n) (hlists.skip n)).map fun _ ↦ rfl

theorem lastBlockWith (h : parser.Twins naming twin)
    (hlists : MirrorsStatements naming parser twin levels levels') :
    parser.Mirrors twin (Option.map (Block.rename naming))
      (Parser.lastBlockWith (statementsWithin levels))
      (Parser.lastBlockWith (statementsWithin levels')) := by
  refine get (ite (by rw [h.kind_eq]) (fun _ ↦ ?_) fun _ ↦ pure rfl)
  apply (advance h).bind
  intro _ n _ _
  exact (blockWith (h.skip n) (hlists.skip n)).map fun _ ↦ rfl

theorem conditionalWith (h : parser.Twins naming twin)
    (hexpr : MirrorsExpressions naming parser twin levels levels')
    (hlists : MirrorsStatements naming parser twin levels levels') :
    parser.Mirrors twin (Stmt.rename naming)
      (Parser.conditionalWith (expressionWithin levels) (statementsWithin levels))
      (Parser.conditionalWith (expressionWithin levels') (statementsWithin levels')) := by
  rw [conditionalWith_eq, conditionalWith_eq]
  apply (linkWith h hexpr hlists).bind
  intro first n _ _
  have hothers := many (progresses_nextLink levels) (progresses_nextLink levels') (h.skip n)
    fun m ↦ nextLinkWith ((h.skip n).skip m) ((hexpr.skip n).skip m) ((hlists.skip n).skip m)
  apply hothers.bind
  intro others m _ _
  have hlast := lastBlockWith ((h.skip n).skip m) ((hlists.skip n).skip m)
  exact hlast.bind fun last _ _ _ ↦ pure (Stmt.ofLinks_rename naming first others last)

theorem loopFrom (h : parser.Twins naming twin)
    (hexpr : MirrorsExpressions naming parser twin levels levels')
    (hlists : MirrorsStatements naming parser twin levels levels') {index : String}
    (hindex : index ≠ "") (hindex' : naming index ≠ "") :
    parser.Mirrors twin (Stmt.rename naming)
      (Parser.loopFrom (expressionWithin levels) (statementsWithin levels) index)
      (Parser.loopFrom (expressionWithin levels') (statementsWithin levels') (naming index)) := by
  apply (requiredWith hexpr _).bind_closed h ';'
  intro initial n
  apply (requiredWith (hexpr.skip n) _).bind_closed (h.skip n) ';'
  intro condition m
  have h₂ := (h.skip n).skip m
  have hexpr₂ := (hexpr.skip n).skip m
  have hlists₂ := (hlists.skip n).skip m
  apply (requiredWith hexpr₂ _).bind_closed h₂ ')'
  intro step k
  apply (blockWith (h₂.skip k) (hlists₂.skip k)).bind
  intro body _ _ _
  rw [Stmt.forLoop_rename naming hindex hindex']
  exact built _

theorem loopWith (h : parser.Twins naming twin)
    (hexpr : MirrorsExpressions naming parser twin levels levels')
    (hlists : MirrorsStatements naming parser twin levels levels') :
    parser.Mirrors twin (Stmt.rename naming)
      (Parser.loopWith (expressionWithin levels) (statementsWithin levels))
      (Parser.loopWith (expressionWithin levels') (statementsWithin levels')) := by
  rw [loopWith_eq, loopWith_eq]
  apply (advance h).bind_closed h '('
  intro _ n
  replace h := h.skip n
  apply (expectIdentifier h _).bind
  intro index m hindex hindex'
  obtain ⟨-, -, hname, -⟩ := (Reads.expectIdentifier h.ready _ 0).exists_of_ok hindex
  obtain ⟨-, -, hname', -⟩ := (Reads.expectIdentifier h.ready' _ 0).exists_of_ok hindex'
  apply (expectChar (h.skip m) '=').bind
  intro _ k _ _
  exact loopFrom ((h.skip m).skip k) (((hexpr.skip n).skip m).skip k)
    (((hlists.skip n).skip m).skip k) hname.ne_empty hname'.ne_empty

theorem statementFormWith (h : parser.Twins naming twin)
    (hexpr : MirrorsExpressions naming parser twin levels levels')
    (hlists : MirrorsStatements naming parser twin levels levels') (form : StatementForm) :
    parser.Mirrors twin (Stmt.rename naming)
      (Parser.statementFormWith (expressionWithin levels) (statementsWithin levels) form)
      (Parser.statementFormWith (expressionWithin levels') (statementsWithin levels') form) := by
  cases form with
  | assignment => exact assignmentWith h hexpr
  | result => exact resultWith h hexpr
  | conditional => exact conditionalWith h hexpr hlists
  | loop => exact loopWith h hexpr hlists

theorem statementWith (h : parser.Twins naming twin)
    (hexpr : MirrorsExpressions naming parser twin levels levels')
    (hlists : MirrorsStatements naming parser twin levels levels') :
    parser.Mirrors twin (Option.map (Stmt.rename naming))
      (Parser.statementWith (expressionWithin levels) (statementsWithin levels))
      (Parser.statementWith (expressionWithin levels') (statementsWithin levels')) := by
  apply get
  rw [h.find?_statements]
  split
  · next form _ => exact (statementFormWith h hexpr hlists form).map fun _ ↦ rfl
  · refine ite (by rw [h.startsAssignment_eq]) (fun _ ↦ ?_) fun _ ↦ ?_
    · exact (assignmentWith h hexpr).map fun _ ↦ rfl
    · refine bind_option (hexpr 0) (fun _ ↦ pure rfl) fun value n ↦ ?_
      exact (expectChar (h.skip n) ';').bind fun _ _ _ _ ↦ pure rfl

theorem nextStatementWith (h : parser.Twins naming twin)
    (hexpr : MirrorsExpressions naming parser twin levels levels')
    (hlists : MirrorsStatements naming parser twin levels levels') :
    parser.Mirrors twin (Option.map (Stmt.rename naming))
      (Parser.nextStatementWith (expressionWithin levels) (statementsWithin levels))
      (Parser.nextStatementWith (expressionWithin levels') (statementsWithin levels')) :=
  get (ite (by rw [h.kind_eq]) (fun _ ↦ pure rfl) fun _ ↦ statementWith h hexpr hlists)

end Mirrors

theorem mirrorsStatements (h : parser.Twins naming twin)
    (hkeeps : parser.Keeps twin levels levels') :
    MirrorsStatements naming parser twin levels levels' := by
  induction levels generalizing levels' with
  | zero =>
    refine fun n ↦ Mirrors.tooDeep (hkeeps.skip n) fun hlevels ↦ ?_
    rw [hlevels, statementsWithin]
  | succ levels ih =>
    obtain ⟨levels', rfl, hinner⟩ := hkeeps.exists_of_succ
    have hexpr := mirrorsExpressions h hinner
    have hlists := ih hinner
    intro n
    refine Mirrors.many (progresses_nextStatement levels) (progresses_nextStatement levels')
      (h.skip n) fun m ↦ ?_
    exact .nextStatementWith ((h.skip n).skip m) ((hexpr.skip n).skip m) ((hlists.skip n).skip m)

end ExprLang.Parser
