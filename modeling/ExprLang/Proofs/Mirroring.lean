import ExprLang.Proofs.Renaming
import ExprLang.Proofs.Repetition

/-!
# Parsers Side by Side

Two parsers before the same symbols, up to a change of names, take the same tokens, yield the same
results up to that change, and halt at the same token for the same reason.  The second one may have
more levels left.  Then the first may halt for want of levels, and the second goes at least as far.
-/

namespace ExprLang.Parser

variable {α β γ δ : Type}

/-- Two parsers before the same symbols, the second under other names and with no fewer levels. -/
structure Twins (naming : String → String) (parser twin : Parser) : Prop where
  ready : parser.Ready
  ready' : twin.Ready
  symbol : ∀ n, (twin.skip n).current.symbol = (parser.skip n).current.symbol.rename naming
  room_le : parser.room ≤ twin.room

namespace Twins

variable {naming : String → String} {parser twin : Parser}

theorem skip (h : parser.Twins naming twin) (n : Nat) :
    (parser.skip n).Twins naming (twin.skip n) where
  ready := h.ready.skip n
  ready' := h.ready'.skip n
  symbol m := by rw [skip_skip, skip_skip, h.symbol]
  room_le := by simpa using h.room_le

theorem symbol_eq (h : parser.Twins naming twin) :
    twin.current.symbol = parser.current.symbol.rename naming :=
  h.symbol 0

theorem kind_eq (h : parser.Twins naming twin) : twin.current.kind = parser.current.kind := by
  have hsymbol := congrArg Symbol.kind h.symbol_eq
  rwa [Symbol.rename_kind] at hsymbol

theorem isChar_eq (h : parser.Twins naming twin) (c : Char) :
    twin.current.isChar c = parser.current.isChar c := by
  rw [Token.isChar, Token.isChar, h.kind_eq]

theorem peekKind_eq (h : parser.Twins naming twin) : twin.peekKind = parser.peekKind :=
  (h.skip 1).kind_eq

theorem lexeme_eq (h : parser.Twins naming twin) (hkind : parser.current.kind ≠ .identifier) :
    twin.current.lexeme = parser.current.lexeme := by
  have hsymbol := congrArg Symbol.lexeme h.symbol_eq
  rwa [Symbol.rename, Token.symbol_kind, if_neg hkind] at hsymbol

theorem word_eq (h : parser.Twins naming twin) (hkind : parser.current.kind = .identifier) :
    twin.lexer.word = naming parser.lexer.word := by
  have hsymbol := congrArg Symbol.lexeme h.symbol_eq
  rw [Symbol.rename, Token.symbol_kind, if_pos hkind] at hsymbol
  rw [h.ready.inStep.word_eq hkind, h.ready'.inStep.word_eq (h.kind_eq.trans hkind)]
  exact hsymbol

theorem number_eq (h : parser.Twins naming twin) (hkind : parser.current.kind = .number) :
    twin.lexer.number = parser.lexer.number := by
  have hlexeme := h.lexeme_eq (by simp [hkind])
  rw [h.ready.inStep.number_eq hkind, h.ready'.inStep.number_eq (h.kind_eq.trans hkind), hlexeme]

end Twins

/-- What a step can find wrong with the current token. -/
inductive Fault where
  | malformed
  | unexpected (expected : String)
  | unknown
  | missing (after : String)
  | tooDeep
  | defect (defect : Defect)

def Fault.halt (parser : Parser) : Fault → Halt
  | malformed => .failure ⟨.malformedNumber parser.current.lexeme, parser.position⟩
  | unexpected expected =>
    .failure ⟨.unexpectedToken expected parser.current.describe, parser.position⟩
  | unknown => .failure ⟨.unknownExpression parser.current.describe, parser.position⟩
  | missing after => .failure ⟨.expectedExpression after, parser.position⟩
  | tooDeep => .failure ⟨.nestingTooDeep parser.options.maxNestingDepth, parser.position⟩
  | defect flaw => .defect flaw

/-- The second step does at the twin what the first step does at the parser. -/
inductive Mirrors (parser twin : Parser) (f : α → β) (step : Step α) (step' : Step β) : Prop
  | ok (n : Nat) (a : α) (h : step parser = .ok a (parser.skip n))
      (h' : step' twin = .ok (f a) (twin.skip n))
  | halt (n : Nat) (fault : Fault)
      (h : step parser = .error (fault.halt (parser.skip n)) (parser.skip n))
      (h' : step' twin = .error (fault.halt (twin.skip n)) (twin.skip n))
  /-- The first step runs out of levels that the second one still has. -/
  | short (n m : Nat) (hroom : parser.room < twin.room)
      (h : step parser = .error (Fault.tooDeep.halt (parser.skip n)) (parser.skip n))
      (h' : leaving (step' twin) = twin.skip (n + m))

namespace Mirrors

variable {parser twin : Parser} {naming : String → String} {f : α → β} {g : γ → δ}
  {step : Step α} {step' : Step β} {next : α → Step γ} {next' : β → Step δ}

theorem of_apply {other : Step α} {other' : Step β} (hother : parser.Mirrors twin f other other')
    (h : step parser = other parser) (h' : step' twin = other' twin) :
    parser.Mirrors twin f step step' := by
  cases hother with
  | ok n a hok hok' => exact .ok n a (h.trans hok) (h'.trans hok')
  | halt n fault hhalt hhalt' => exact .halt n fault (h.trans hhalt) (h'.trans hhalt')
  | short n m hroom hshort hshort' => exact .short n m hroom (h.trans hshort) (h' ▸ hshort')

theorem pure {a : α} {b : β} (h : b = f a) : parser.Mirrors twin f (Pure.pure a) (Pure.pure b) :=
  .ok 0 a rfl (by rw [h, skip_zero, pure_apply])

theorem get {next : Parser → Step α} {next' : Parser → Step β}
    (h : parser.Mirrors twin f (next parser) (next' twin)) :
    parser.Mirrors twin f (MonadState.get >>= next) (MonadState.get >>= next') :=
  h.of_apply (get_bind_apply next parser) (get_bind_apply next' twin)

theorem unexpected (expected : String) :
    parser.Mirrors twin f (Parser.unexpected expected) (Parser.unexpected expected) :=
  .halt 0 (.unexpected expected) rfl rfl

theorem unknown : parser.Mirrors twin f (Parser.fail (.unknownExpression parser.current.describe))
    (Parser.fail (.unknownExpression twin.current.describe)) :=
  .halt 0 .unknown rfl rfl

theorem missing (after : String) : parser.Mirrors twin f (Parser.fail (.expectedExpression after))
    (Parser.fail (.expectedExpression after)) :=
  .halt 0 (.missing after) rfl rfl

theorem built (statement : Except Defect Stmt) {f : Stmt → Stmt} :
    parser.Mirrors twin f (Parser.built statement) (Parser.built (statement.map f)) := by
  cases statement with
  | ok stmt => exact pure rfl
  | error defect => exact .halt 0 (.defect defect) rfl rfl

theorem ite {other : Step α} {other' : Step β} {condition condition' : Prop} [Decidable condition]
    [Decidable condition'] (hcondition : condition' ↔ condition)
    (hstep : condition → parser.Mirrors twin f step step')
    (hother : ¬ condition → parser.Mirrors twin f other other') :
    parser.Mirrors twin f (if condition then step else other)
      (if condition' then step' else other') := by
  by_cases h : condition
  · rw [if_pos h, if_pos (hcondition.mpr h)]
    exact hstep h
  · rw [if_neg h, if_neg (mt hcondition.mp h)]
    exact hother h

/-- Steps one after the other.  What the second run does after the first has halted does not matter,
as long as it only takes tokens. -/
theorem bind [∀ b, Skips (next' b)] (hstep : parser.Mirrors twin f step step')
    (hnext : ∀ a n, step parser = .ok a (parser.skip n) → step' twin = .ok (f a) (twin.skip n) →
      (parser.skip n).Mirrors (twin.skip n) g (next a) (next' (f a))) :
    parser.Mirrors twin g (step >>= next) (step' >>= next') := by
  cases hstep with
  | ok n a h h' =>
    cases hnext a n h h' with
    | ok m b hb hb' =>
      rw [skip_skip] at hb hb'
      exact .ok (n + m) b ((bind_of_ok next h).trans hb) ((bind_of_ok next' h').trans hb')
    | halt m fault hb hb' =>
      rw [skip_skip] at hb hb'
      exact .halt (n + m) fault ((bind_of_ok next h).trans hb) ((bind_of_ok next' h').trans hb')
    | short m k hroom hb hb' =>
      rw [skip_skip] at hb hb'
      rw [skip_room, skip_room] at hroom
      refine .short (n + m) k hroom ((bind_of_ok next h).trans hb) ?_
      rw [bind_of_ok next' h', hb', Nat.add_assoc]
  | halt n fault h h' => exact .halt n fault (bind_of_error next h) (bind_of_error next' h')
  | short n m hroom h h' =>
    obtain ⟨k, hk⟩ := exists_skip_leaving_bind step' next' twin
    refine .short n (m + k) hroom (bind_of_error next h) ?_
    rw [hk, h', skip_skip, Nat.add_assoc]

/-- A step that may yield nothing, and what follows in either case. -/
theorem bind_option {step : Step (Option α)} {step' : Step (Option β)} {next : Option α → Step γ}
    {next' : Option β → Step δ} [Skips (next' none)] [∀ b, Skips (next' (some b))]
    (hstep : parser.Mirrors twin (Option.map f) step step')
    (hnone : ∀ n, (parser.skip n).Mirrors (twin.skip n) g (next none) (next' none))
    (hsome : ∀ a n, (parser.skip n).Mirrors (twin.skip n) g (next (some a)) (next' (some (f a)))) :
    parser.Mirrors twin g (step >>= next) (step' >>= next') := by
  have hskips (result : Option β) : Skips (next' result) := by
    cases result <;> infer_instance
  apply hstep.bind
  intro result n _ _
  cases result with
  | none => exact hnone n
  | some a => exact hsome a n

theorem map {make : α → γ} {make' : β → δ} (hstep : parser.Mirrors twin f step step')
    (hmake : ∀ a, make' (f a) = g (make a)) :
    parser.Mirrors twin g (make <$> step) (make' <$> step') := by
  cases hstep with
  | ok n a h h' => exact .ok n (make a) (by rw [map_apply, h]) (by simp only [map_apply, h', hmake])
  | halt n fault h h' => exact .halt n fault (by rw [map_apply, h]) (by rw [map_apply, h'])
  | short n m hroom h h' =>
    refine .short n m hroom (by rw [map_apply, h]) ?_
    rw [map_apply]
    cases hresult : step' twin <;> simpa [hresult] using h'

theorem advance (h : parser.Twins naming twin) :
    parser.Mirrors twin id (discard Parser.advance) (discard Parser.advance) := by
  have hkind : twin.shifted.current.kind = parser.shifted.current.kind := (h.skip 1).kind_eq
  by_cases hmalformed : parser.shifted.current.kind = .malformedNumber
  · refine .halt 1 .malformed ?_ ?_
    · rw [discard_apply, advance_apply, if_pos hmalformed]
      rfl
    · rw [discard_apply, advance_apply, if_pos (hkind.trans hmalformed)]
      rfl
  · refine .ok 1 () ?_ ?_
    · rw [discard_apply, advance_apply, if_neg hmalformed, skip_one]
    · rw [discard_apply, advance_apply, if_neg (by rwa [hkind]), skip_one, id]

theorem expectAs (h : parser.Twins naming twin) (kind : TokenKind) (expected : String) :
    parser.Mirrors twin id (discard (Parser.expectAs kind expected))
      (discard (Parser.expectAs kind expected)) := by
  refine of_apply ?_ (discard_expectAs_apply kind expected parser)
    (discard_expectAs_apply kind expected twin)
  exact ite (by rw [h.kind_eq]) (fun _ ↦ advance h) fun _ ↦ unexpected expected

theorem expectChar (h : parser.Twins naming twin) (c : Char) :
    parser.Mirrors twin id (discard (Parser.expectChar c)) (discard (Parser.expectChar c)) :=
  expectAs h _ _

theorem expectIdentifier (h : parser.Twins naming twin) (expected : String) :
    parser.Mirrors twin naming (Parser.expectIdentifier expected)
      (Parser.expectIdentifier expected) := by
  refine get (ite (by rw [h.kind_eq]) (fun hkind ↦ ?_) fun _ ↦ unexpected expected)
  exact (advance h).bind fun _ n _ _ ↦ pure (h.word_eq hkind)

/-- A part and the token that closes it. -/
theorem bind_closed [∀ b, Skips (next' b)] (hstep : parser.Mirrors twin f step step')
    (h : parser.Twins naming twin) (c : Char) [Text.OneLine (TokenKind.char c).describe]
    (hnext : ∀ a n, (parser.skip n).Mirrors (twin.skip n) g (next a) (next' (f a))) :
    parser.Mirrors twin g
      (step >>= fun a ↦ discard (Parser.expectChar c) >>= fun _ ↦ next a)
      (step' >>= fun b ↦ discard (Parser.expectChar c) >>= fun _ ↦ next' b) := by
  refine hstep.bind fun a n _ _ ↦ (expectChar (h.skip n) c).bind fun _ m _ _ ↦ ?_
  rw [skip_skip, skip_skip]
  exact hnext a (n + m)

theorem many {step : Step (Option α)} {step' : Step (Option β)} [Skips step']
    (hprogresses : Progresses step) (hprogresses' : Progresses step')
    (h : parser.Twins naming twin)
    (hstep : ∀ n, (parser.skip n).Mirrors (twin.skip n) (Option.map f) step step') :
    parser.Mirrors twin (List.map f) (Parser.many step) (Parser.many step') := by
  induction hsize : parser.size using Nat.strong_induction_on generalizing parser twin with
  | _ size ih =>
    refine of_apply ?_ (hprogresses.many_eq h.ready) (hprogresses'.many_eq h.ready')
    apply (hstep 0).bind
    intro result n hresult _
    cases result with
    | none => exact pure rfl
    | some a =>
      have hlt := (hprogresses _ a _ h.ready hresult).2
      have hmany := ih _ (hsize ▸ hlt) (h.skip n) (fun m ↦ ?_) rfl
      · exact hmany.map fun _ ↦ rfl
      · rw [skip_skip, skip_skip]
        exact hstep (n + m)

end Mirrors

end ExprLang.Parser
