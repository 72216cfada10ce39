import ExprLang.Proofs.Copying
import ExprLang.Proofs.Failures
import ExprLang.Proofs.WellFormed

/-!
# Nothing Goes Wrong

A parse yields a unit or refuses the source.  On the way every position at which the source is cut
lies between two of its characters, no link of a chain of conditions is overwritten, and no
statement is built that cannot be.
-/

namespace ExprLang

namespace Lexer

variable {lexer : Lexer} {source : String}

/-- The text that is left ends the source, and the offset is where it starts. -/
def StandsIn (lexer : Lexer) (source : String) : Prop :=
  ∃ before, source.toList = before ++ lexer.rest ∧ lexer.offset = Text.byteSize before

/-- The source may be cut wherever a gap or a token starts or ends. -/
def CutsSafely (lexer : Lexer) (source : String) : Prop :=
  (∀ front back, lexer.rest = front ++ back →
    String.Pos.Raw.IsValid source ⟨lexer.offset + Text.byteSize front⟩) ∧
  lexer.peek.1.start ≤ lexer.peek.1.stop ∧ lexer.peek.1.Spans source

theorem standsIn_ofSource (source : String) (file : Option String) :
    (ofSource source file).StandsIn source := ⟨[], rfl, rfl⟩

theorem StandsIn.next (h : lexer.StandsIn source) : lexer.next.2.StandsIn source := by
  obtain ⟨before, hsource, hoffset⟩ := h
  let gap := (splitGap false lexer.rest).1
  let lexeme := firstLexeme (splitGap false lexer.rest).2
  refine ⟨before ++ gap ++ lexeme, ?_, ?_⟩
  · calc
      source.toList = before ++ lexer.rest := hsource
      _ = before ++ (gap ++ lexeme ++ lexer.next.2.rest) := by
        rw [lexer.gap_append_lexeme_append_rest]
      _ = before ++ gap ++ lexeme ++ lexer.next.2.rest := by simp only [List.append_assoc]
  · calc
      lexer.next.2.offset = lexer.offset + Text.byteSize gap + Text.byteSize lexeme := rfl
      _ = Text.byteSize (before ++ gap ++ lexeme) := by
        rw [hoffset, Text.byteSize_append, Text.byteSize_append]

theorem StandsIn.after (h : lexer.StandsIn source) (n : Nat) :
    (lexer.after n).StandsIn source := by
  induction n generalizing lexer with
  | zero => exact h
  | succ n ih => exact ih h.next

theorem StandsIn.cutsSafely (h : lexer.StandsIn source) : lexer.CutsSafely source := by
  obtain ⟨before, hsource, hoffset⟩ := h
  rw [CutsSafely, peek_eq]
  refine ⟨fun front back hrest ↦ ?_, Nat.le_add_right _ _, ?_⟩
  · have hcut : source.toList = (before ++ front) ++ back := by
      rw [hsource, hrest, List.append_assoc]
    rw [hoffset, ← Text.byteSize_append]
    exact isValid_of_append hcut
  · let gap := (splitGap false lexer.rest).1
    have hlexeme : lexer.next.1.lexeme.toList = firstLexeme (splitGap false lexer.rest).2 :=
      String.toList_ofList
    have hcut : source.toList =
        (before ++ gap) ++ lexer.next.1.lexeme.toList ++ lexer.next.2.rest := by
      rw [hsource, ← lexer.gap_append_lexeme_append_rest, hlexeme]
      simp only [gap, List.append_assoc]
    apply spans_of_append hcut
    · rw [Text.byteSize_append, ← hoffset]
      rfl
    · rw [Text.byteSize_append, ← hoffset, hlexeme]
      rfl

end Lexer

/-- A parse yields a unit or refuses the source, and cuts the source without fault.  A chain that is
built link by link loses none of them.  The unit is made of well-formed items: runs become functions
without parameters that hold statements, the other functions have names of their own.  It equals
itself, its copy and what another parse of the source yields. -/
theorem parse_safe (source : String) (options : Options) :
    ((∃ unit : SourceUnit, (parse source options).result = .ok unit) ∨
      ∃ diagnostic : Diagnostic, (parse source options).result = .error (.failure diagnostic)) ∧
    (∀ n : Nat, ((Lexer.ofSource source options.fileName).after n).CutsSafely source) ∧
    (∀ (expr : Step (Option Expr)) (statements : Step Block),
      Parser.conditionalWith expr statements = do
        let first ← Parser.linkWith expr statements
        let others ← Parser.many (Parser.nextLinkWith expr statements)
        let last ← Parser.lastBlockWith statements
        pure (.ofLinks first others last)) ∧
    ∀ unit : SourceUnit, (parse source options).result = .ok unit →
      unit = .ofItems options (parse source options).items ∧
      (∀ item ∈ (parse source options).items, item.WellFormed) ∧
      (∀ body : Block, .run body ∈ (parse source options).items →
        body ≠ [] ∧ ⟨⟨options.anonymousName, []⟩, body⟩ ∈ unit.definitions) ∧
      unit == unit ∧ unit == unit.copy ∧ unit.copy == unit ∧
      ∀ unit' : SourceUnit, (parse source options).result = .ok unit' → unit == unit' := by
  have hitems := parse_items_wellFormed source options
  refine ⟨?_, ?_, Parser.conditionalWith_eq, ?_⟩
  · cases hresult : (parse source options).result with
    | ok unit => exact .inl ⟨unit, rfl⟩
    | error halt =>
      obtain ⟨n, cause, rfl, -⟩ := Parser.exists_failure hresult
      exact .inr ⟨_, rfl⟩
  · intro n
    exact ((Lexer.standsIn_ofSource source options.fileName).after n).cutsSafely
  · intro unit hresult
    obtain rfl := parse_eq_ofItems hresult
    have hself := (SourceUnit.beq_self_iff _).mpr
      (SourceUnit.not_isNaN_of_wellFormed options hitems)
    refine ⟨rfl, hitems, ?_, hself, ?_, ?_, ?_⟩
    · intro body hbody
      exact ⟨(hitems _ hbody).1, List.mem_filterMap.mpr ⟨_, hbody, rfl⟩⟩
    · rwa [SourceUnit.copy_eq]
    · rwa [SourceUnit.copy_eq]
    · intro unit' hresult'
      rw [hresult] at hresult'
      rwa [← Except.ok.inj hresult']

end ExprLang
