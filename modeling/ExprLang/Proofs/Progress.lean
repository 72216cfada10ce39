import ExprLang.Proofs.Diagnoses
import ExprLang.Proofs.ParserSessions

/-!
# Progress

What a step of the grammar yields has been read from at least one token, and where it yields nothing
it leaves the parser alone.  So every repetition ends without a bound, and no token is taken twice
or left out.
-/

namespace ExprLang

theorem Symbol.Terminal.kind_ne_endOfInput {symbol : Symbol} (h : symbol.Terminal) :
    symbol.kind ≠ .endOfInput := h.proper.1.kind_ne_endOfInput

/-- At least one symbol of the grammar, and nothing else. -/
def IsText (word : List Symbol) : Prop := word ≠ [] ∧ ∀ symbol ∈ word, symbol.Terminal

/-- What spells a phrase that cannot be empty is a text. -/
theorem Spells.isText {phrase : Phrase} {word : List Symbol} (h : Spells phrase word)
    (hphrase : ¬ phrase.StartsRight []) : IsText word := by
  obtain ⟨depth, h⟩ := h
  refine ⟨?_, h.terminal⟩
  rintro rfl
  exact hphrase h.startsRight

theorem SpellsItem.isText {item : Item} {word : List Symbol} (h : SpellsItem item word) :
    IsText word := by
  refine ⟨?_, h.terminal⟩
  obtain ⟨symbol, rest, rfl, -⟩ := h.head
  exact List.cons_ne_nil symbol rest

namespace Parser

variable {α : Type} {parser : Parser}

/-- At least one token has been taken, and never the end of input. -/
def TakesTokens (parser parser' : Parser) : Prop :=
  ∃ n, parser' = parser.skip (n + 1) ∧ ∀ m ≤ n, (parser.skip m).current.kind ≠ .endOfInput

/-- Whatever the step yields, it takes tokens for it. -/
def Takes (parser : Parser) (step : Step α) : Prop :=
  ∀ a parser', step parser = .ok a parser' → parser.TakesTokens parser'

/-- The step takes tokens for what it yields and leaves the parser alone if it yields nothing. -/
def TakesOrStays (parser : Parser) (step : Step (Option α)) : Prop :=
  (∀ parser', step parser = .ok none parser' → parser' = parser) ∧
    ∀ a parser', step parser = .ok (some a) parser' → parser.TakesTokens parser'

theorem kind_ne_endOfInput_of_ahead {n : Nat} (h : ∀ symbol ∈ parser.ahead n, symbol.Terminal)
    {m : Nat} (hm : m < n) : (parser.skip m).current.kind ≠ .endOfInput := by
  have hlength : m < (parser.ahead n).length := by rwa [length_ahead]
  have hsymbol := h _ (List.getElem_mem hlength)
  rw [getElem_ahead] at hsymbol
  exact hsymbol.kind_ne_endOfInput

theorem takesTokens_skip {n : Nat} (h : IsText (parser.ahead n)) :
    parser.TakesTokens (parser.skip n) := by
  cases n with
  | zero => exact absurd rfl h.1
  | succ n => exact ⟨n, rfl, fun m hm ↦ kind_ne_endOfInput_of_ahead h.2 (Nat.lt_succ_of_le hm)⟩

namespace Reads

variable {bound : Nat} {spells : α → List Symbol → Prop}

theorem takes {step : Step α} (h : parser.Reads step spells bound)
    (hspells : ∀ a word, spells a word → IsText word) : parser.Takes step := by
  intro a parser' heq
  obtain ⟨n, rfl, ha⟩ := h.exists_of_ok heq
  exact takesTokens_skip (hspells a _ ha)

theorem takesOrStays {step : Step (Option α)} {stops : Prop}
    (h : parser.Reads step (Maybe stops spells) bound)
    (hspells : ∀ a word, spells a word → IsText word) : parser.TakesOrStays step := by
  constructor
  · intro parser' heq
    obtain ⟨n, rfl, hnone⟩ := h.exists_of_ok heq
    obtain rfl : n = 0 := length_of_ahead_eq hnone.2
    rfl
  · intro a parser' heq
    obtain ⟨n, rfl, ha⟩ := h.exists_of_ok heq
    exact takesTokens_skip (hspells a _ ha)

end Reads

theorem readsExpressions_expression : ReadsExpressions expression 0 := fun parser bound h hbound ↦
  .of_apply rfl (readsExpressions_expressionWithin parser.room parser bound h (by omega))

theorem readsStatements_statements : ReadsStatements statements 0 := fun parser bound h hbound ↦
  .of_apply rfl (readsStatements_statementsWithin parser.room parser bound h (by omega))

namespace Ready

theorem takesOrStays_expression (h : parser.Ready) : parser.TakesOrStays expression :=
  (readsExpressions_expression parser 0 h (Nat.zero_le _)).takesOrStays fun _ _ hspells ↦
    hspells.isText (by rintro ⟨_, _, ⟨⟩, _⟩)

theorem takesOrStays_primary (h : parser.Ready) : parser.TakesOrStays primary :=
  (Reads.primaryWith readsExpressions_expression h (Nat.zero_le _)).takesOrStays
    fun _ _ hspells ↦ hspells.isText (by rintro ⟨_, _, ⟨⟩, _⟩)

theorem takesOrStays_statement (h : parser.Ready) : parser.TakesOrStays statement :=
  (Reads.statementWith readsExpressions_expression readsStatements_statements h
    (Nat.zero_le _)).takesOrStays fun _ _ hspells ↦ hspells.isText (by rintro ⟨_, _, ⟨⟩, _⟩)

theorem takes_declaration (h : parser.Ready) : parser.Takes declaration :=
  (@Reads.declaration parser 0 h).takes fun _ _ ↦ SpellsItem.isText

theorem takes_definition (h : parser.Ready) : parser.Takes definition :=
  (Reads.definition h (Nat.zero_le _)).takes fun definition _ ↦
    @SpellsItem.isText (.definition definition) _

theorem takes_run (h : parser.Ready) : parser.Takes run :=
  (Reads.run h (Nat.zero_le _)).takes fun _ _ ↦ SpellsItem.isText

theorem takes_runDefinition (h : parser.Ready) : parser.Takes runDefinition := by
  intro definition parser' heq
  obtain ⟨body, middle, hrun, hdefinition⟩ := exists_of_bind_ok heq
  obtain ⟨-, rfl⟩ := EStateM.Result.ok.inj hdefinition
  exact h.takes_run body middle hrun

end Ready

/-! ## Repetition without a bound -/

/-- A result of the first round before those of the rest. -/
def before (a : α) : EStateM.Result Halt Parser (List α) → EStateM.Result Halt Parser (List α)
  | .ok as parser => .ok (a :: as) parser
  | .error halt parser => .error halt parser

/-- How it ends if a step is repeated until it yields nothing. -/
inductive Repeats (step : Step (Option α)) :
    Parser → EStateM.Result Halt Parser (List α) → Prop
  | halts {parser parser' : Parser} {halt : Halt} : step parser = .error halt parser' →
      Repeats step parser (.error halt parser')
  | stops {parser parser' : Parser} : step parser = .ok none parser' →
      Repeats step parser (.ok [] parser')
  | goesOn {parser parser' : Parser} {a : α} {ending : EStateM.Result Halt Parser (List α)} :
      step parser = .ok (some a) parser' → Repeats step parser' ending →
      Repeats step parser (before a ending)

section

variable {step : Step (Option α)} {ending : EStateM.Result Halt Parser (List α)}

theorem Progresses.many_of_some_eq_before (h : Progresses step) (hready : parser.Ready)
    {parser' : Parser} {a : α} (hstep : step parser = .ok (some a) parser') :
    many step parser = before a (many step parser') := by
  rw [h.many_of_some hready hstep, map_apply]
  cases many step parser' <;> rfl

theorem Progresses.many_of_none (h : Progresses step) (hready : parser.Ready) {parser' : Parser}
    (hstep : step parser = .ok none parser') : many step parser = .ok [] parser' := by
  rw [h.many_eq hready, bind_of_ok _ hstep]
  rfl

theorem Repeats.many_eq (hrepeats : Repeats step parser ending) (h : Progresses step)
    (hready : parser.Ready) : many step parser = ending := by
  induction hrepeats with
  | halts hstep => exact h.many_of_error hready hstep
  | stops hstep => exact h.many_of_none hready hstep
  | goesOn hstep _ ih =>
    rw [h.many_of_some_eq_before hready hstep, ih (h _ _ _ hready hstep).1]

/-- A repeated step takes a token in every round, so there are as many rounds as tokens at most. -/
theorem Progresses.repeats (h : Progresses step) (hready : parser.Ready) :
    Repeats step parser (many step parser) := by
  induction hsize : parser.size using Nat.strong_induction_on generalizing parser with
  | _ size ih =>
    cases hstep : step parser with
    | error halt parser' =>
      rw [h.many_of_error hready hstep]
      exact .halts hstep
    | ok result parser' =>
      cases result with
      | none =>
        rw [h.many_of_none hready hstep]
        exact .stops hstep
      | some a =>
        obtain ⟨hready', hlt⟩ := h parser a parser' hready hstep
        rw [h.many_of_some_eq_before hready hstep]
        exact .goesOn hstep (ih _ (hsize ▸ hlt) hready' rfl)

theorem Progresses.repeats_iff (h : Progresses step) (hready : parser.Ready) :
    Repeats step parser ending ↔ many step parser = ending := by
  constructor
  · exact fun hrepeats ↦ hrepeats.many_eq h hready
  · rintro rfl
    exact h.repeats hready

end

/-- How it ends if a value is replaced by what a step makes of it until the step yields nothing. -/
inductive Iterates (step : α → Step (Option α)) :
    α → Parser → EStateM.Result Halt Parser α → Prop
  | halts {a : α} {parser parser' : Parser} {halt : Halt} : step a parser = .error halt parser' →
      Iterates step a parser (.error halt parser')
  | stops {a : α} {parser parser' : Parser} : step a parser = .ok none parser' →
      Iterates step a parser (.ok a parser')
  | goesOn {a b : α} {parser parser' : Parser} {ending : EStateM.Result Halt Parser α} :
      step a parser = .ok (some b) parser' → Iterates step b parser' ending →
      Iterates step a parser ending

section

variable {step : α → Step (Option α)} {good : Parser → Prop} {ending : EStateM.Result Halt Parser α}

theorem Iterates.iterate_eq {a : α} (hiterates : Iterates step a parser ending)
    (h : ∀ a, ProgressesAmong good (step a)) (hgood : good parser) :
    iterate step a parser = ending := by
  induction hiterates with
  | halts hstep => rw [Parser.iterate_eq h hgood, bind_of_error _ hstep]
  | stops hstep => rw [Parser.iterate_eq h hgood, bind_of_ok _ hstep, onward, pure_apply]
  | goesOn hstep _ ih =>
    rw [Parser.iterate_eq h hgood, bind_of_ok _ hstep, onward]
    exact ih (h _ _ _ _ hgood hstep).1

theorem iterates_iterate (h : ∀ a, ProgressesAmong good (step a)) (hgood : good parser) (a : α) :
    Iterates step a parser (iterate step a parser) := by
  induction hsize : parser.size using Nat.strong_induction_on generalizing parser a with
  | _ size ih =>
    rw [iterate_eq h hgood, bind_apply]
    cases hstep : step a parser with
    | error halt parser' => exact .halts hstep
    | ok result parser' =>
      cases result with
      | none => exact .stops hstep
      | some b =>
        obtain ⟨hgood', hlt⟩ := h a parser b parser' hgood hstep
        exact .goesOn hstep (ih _ (hsize ▸ hlt) hgood' b rfl)

theorem iterates_iff (h : ∀ a, ProgressesAmong good (step a)) (hgood : good parser) (a : α) :
    Iterates step a parser ending ↔ iterate step a parser = ending := by
  constructor
  · exact fun hiterates ↦ hiterates.iterate_eq h hgood
  · rintro rfl
    exact iterates_iterate h hgood a

end

/-- The steps for the expressions and the statement lists in a construct. -/
inductive Deeper : Step (Option Expr) → Step Block → Prop
  | within (levels : Nat) : Deeper (expressionWithin levels) (statementsWithin levels)
  | left : Deeper expression statements

theorem Deeper.exists_reads {expr : Step (Option Expr)} {body : Step Block} (h : Deeper expr body) :
    ∃ levels, ReadsExpressions expr levels ∧ ReadsStatements body levels := by
  cases h with
  | within levels =>
    exact ⟨levels, readsExpressions_expressionWithin levels,
      readsStatements_statementsWithin levels⟩
  | left => exact ⟨0, readsExpressions_expression, readsStatements_statements⟩

theorem Deeper.skips {expr : Step (Option Expr)} {body : Step Block} (h : Deeper expr body) :
    Skips expr := by
  cases h <;> infer_instance

/-- The steps whose results are collected. -/
inductive Loop : {α : Type} → Step (Option α) → Prop
  | items : Loop item
  | statements {expr : Step (Option Expr)} {body : Step Block} : Deeper expr body →
      Loop (nextStatementWith expr body)
  | arguments {expr : Step (Option Expr)} {body : Step Block} : Deeper expr body →
      Loop (afterComma (requiredWith expr "','"))
  | parameters : Loop (afterComma (expectIdentifier "identifier"))
  | targets : Loop target

theorem Loop.progresses {step : Step (Option α)} (h : Loop step) : Progresses step := by
  cases h with
  | items => exact Reads.progresses_item
  | statements h =>
    obtain ⟨levels, hexpr, hbody⟩ := h.exists_reads
    exact Reads.progresses_nextStatementWith hexpr hbody
  | arguments h =>
    obtain ⟨levels, hexpr, -⟩ := h.exists_reads
    exact Reads.progresses_afterComma viable_expression fun parser hready ↦
      Reads.requiredWith hexpr hready (Nat.zero_le _) "','"
  | parameters => exact Reads.progresses_afterComma_name
  | targets => exact Reads.progresses_target

/-- The steps that replace a value: the chain of a condition, and the two trees of a climb.  A right
operand climbs only to powers above the one before it, and the climbs that are left suffice for
these. -/
inductive Fold : {α : Type} → (α → Step (Option α)) → Prop
  | links {expr : Step (Option Expr)} {body : Step Block} : Deeper expr body →
      Fold (extendWith expr body)
  | operations {expr : Step (Option Expr)} {body : Step Block} : Deeper expr body →
      ∀ (climbs : Nat) (least : BindingPower),
        Fold (operationWith expr (climbWithin expr climbs) least)
  | tighter {expr : Step (Option Expr)} {body : Step Block} : Deeper expr body →
      ∀ (climbs : Nat) (power : BindingPower), BindingPower.count ≤ climbs + (power.rank + 1) →
        Fold (tighterWith (climbWithin expr climbs) power)

/-- A chain grows by a link that has been read. -/
theorem progresses_extendWith {expr : Step (Option Expr)} {body : Step Block}
    (h : Deeper expr body) (chain : ElseBranch) : Progresses (extendWith expr body chain) := by
  obtain ⟨levels, hexpr, hbody⟩ := h.exists_reads
  intro parser longer parser' hready hstep
  obtain ⟨result, hresult, hlonger⟩ := exists_of_map_ok hstep
  obtain ⟨link, rfl, -⟩ := Option.map_eq_some_iff.mp hlonger
  exact Reads.progresses_nextLinkWith hexpr hbody parser link parser' hready hresult

theorem Fold.iterates_iff {step : α → Step (Option α)} (h : Fold step) (hready : parser.Ready)
    (a : α) (ending : EStateM.Result Halt Parser α) :
    Iterates step a parser ending ↔ iterate step a parser = ending := by
  cases h with
  | links h => exact Parser.iterates_iff (progresses_extendWith h) hready a
  | @operations expr body h climbs least =>
    have := h.skips
    exact Parser.iterates_iff (progressesAmong_operationWith least) trivial a
  | @tighter expr body h climbs power hclimbs =>
    have := h.skips
    have hclimb : ClimbsAbove expr power.rank (climbWithin expr climbs) :=
      fun next hlt ↦ climbWithin_eq expr climbs next (by omega)
    exact Parser.iterates_iff (progressesAmong_tighterWith hclimb) trivial a

/-! ## The parsers of a parse -/

/-- The parsers that a parse of a source can meet: the first one, those that a step of the grammar
leaves, whether or not it halts, and the same with another number of levels open. -/
inductive Reached (source : String) (options : Options) : Parser → Prop
  | start : Reached source options (start source options)
  | step {α : Type} (step : Step α) [Skips step] {parser : Parser} :
      Reached source options parser → Reached source options (leaving (step parser))
  | level (depth : Nat) {parser : Parser} :
      Reached source options parser → Reached source options { parser with depth := depth }

variable {source : String} {options : Options}

theorem Reached.ready (h : Reached source options parser) : parser.Ready := by
  induction h with
  | start => exact ready_start source options
  | step step _ ih =>
    obtain ⟨n, hn⟩ := Skips.exists_skip_apply step _
    rw [hn]
    exact ih.skip n
  | level depth _ ih => exact ⟨ih.inStep, ih.tables⟩

theorem leaving_unit (parser : Parser) :
    leaving (Parser.unit parser) = leaving (many item parser) := by
  rw [unit_eq, bind_apply]
  cases many item parser <;> rfl

theorem eq_start_of_ofSource (h : ofSource source options = .ok parser) :
    parser = Parser.start source options := by
  rw [ofSource_eq] at h
  split at h
  · cases h
  · exact (Except.ok.inj h).symm

/-- Reading a unit takes the tokens of a program, whether or not it fails. -/
theorem exists_leaving_unit (source : String) (options : Options) :
    ∃ n, leaving (Parser.unit (Parser.start source options)) =
      (Parser.start source options).skip n ∧
      Completable options ((Parser.start source options).ahead n) := by
  rw [leaving_unit]
  cases hitems : many item (Parser.start source options) with
  | ok items parser' =>
    obtain ⟨n, rfl, hunit⟩ := (reads_start source options).exists_of_ok hitems
    exact ⟨n, rfl, items, [], by simpa using hunit⟩
  | error halt parser' =>
    obtain ⟨n, -, rfl, -, hviable, -⟩ := (reads_start source options).exists_of_error hitems
    exact ⟨n, rfl, hviable⟩

theorem kind_of_unit {parser' : Parser} {sourceUnit : SourceUnit} (hready : parser.Ready)
    (h : Parser.unit parser = .ok sourceUnit parser') : parser'.current.kind = .endOfInput := by
  rw [unit_eq] at h
  obtain ⟨items, middle, hitems, hunit⟩ := exists_of_bind_ok h
  obtain ⟨-, rfl⟩ := EStateM.Result.ok.inj hunit
  exact kind_of_items hready hitems

/-- Wherever a parse may stand, a step that reads a part of a program leaves the parser alone or
takes tokens, and every loop ends.  A parse of a whole source takes the tokens in order, never the
end of input, and if it succeeds it takes all the others. -/
theorem makes_progress (source : String) (options : Options) :
    (∀ parser, Reached source options parser →
      parser.TakesOrStays expression ∧ parser.TakesOrStays primary ∧
        parser.TakesOrStays statement ∧ parser.Takes declaration ∧ parser.Takes definition ∧
        parser.Takes runDefinition ∧
        (∀ (α : Type) (step : Step (Option α)), Loop step →
          ∀ ending, Repeats step parser ending ↔ many step parser = ending) ∧
        (∀ ending, Repeats item parser ending ↔ parser.items.outcome = ending) ∧
        ∀ (α : Type) (step : α → Step (Option α)), Fold step →
          ∀ a ending, Iterates step a parser ending ↔ iterate step a parser = ending) ∧
    ∀ parser, ofSource source options = .ok parser →
      let tokens := (Lexer.ofSource source options.fileName).tokens
      let parser' := leaving (Parser.unit parser)
      parser' = parser.skip parser'.taken ∧
        (∀ m < parser'.taken, tokens[m]? = some (parser.skip m).current ∧
          (parser.skip m).current.kind ≠ .endOfInput) ∧
        ∀ sourceUnit, Parser.unit parser = .ok sourceUnit parser' →
          tokens.length = parser'.taken + 1 ∧ parser'.current.kind = .endOfInput := by
  constructor
  · intro parser hreached
    have hready := hreached.ready
    refine ⟨hready.takesOrStays_expression, hready.takesOrStays_primary,
      hready.takesOrStays_statement, hready.takes_declaration, hready.takes_definition,
      hready.takes_runDefinition, fun _ step hloop ending ↦ hloop.progresses.repeats_iff hready,
      fun ending ↦ ?_, fun _ step hfold a ending ↦ hfold.iterates_iff hready a ending⟩
    rw [← many_item_eq]
    exact Progresses.repeats_iff Reads.progresses_item hready
  · intro parser hparser tokens parser'
    obtain rfl := eq_start_of_ofSource hparser
    obtain ⟨n, hn, hcompletable⟩ := exists_leaving_unit source options
    have htaken : parser'.taken = n := by
      rw [show parser' = _ from hn, skip_taken, start_taken, Nat.zero_add]
    have hlt : n < tokens.length := by
      rw [← length_sourceSymbols source options.fileName]
      exact lt_length_of_proper hcompletable.proper
    rw [htaken]
    refine ⟨hn, fun m hm ↦ ⟨?_, kind_ne_endOfInput_of_ahead hcompletable.terminal hm⟩, ?_⟩
    · rw [List.getElem?_eq_getElem (hm.trans hlt), Lexer.tokens_getElem, skip_start_current]
    · intro sourceUnit hunit
      have hend := kind_of_unit (ready_start source options) hunit
      refine ⟨?_, hend⟩
      rw [show parser' = _ from hn, skip_start_kind_eq_endOfInput_iff,
        length_sourceSymbols source options.fileName] at hend
      exact le_antisymm hend hlt

end Parser

end ExprLang
