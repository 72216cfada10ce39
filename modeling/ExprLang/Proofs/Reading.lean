import ExprLang.Proofs.Derivation
import ExprLang.Proofs.Repetition

/-!
# What Steps Read

A step reads a language when the tokens it takes before a success spell its result, and the tokens
it takes before a failure can be completed to a spelling of some result.  A failure for want of
levels comes after at least as many tokens as the levels that were left.
-/

namespace ExprLang

variable {α β : Type}

def Cause.isNesting : Cause → Bool
  | .nestingTooDeep _ => true
  | _ => false

/-- The tokens taken start a spelling. -/
def Viable (spells : α → List Symbol → Prop) (word : List Symbol) : Prop :=
  ∃ a rest, spells a (word ++ rest)

theorem Viable.of_append {spells : α → List Symbol → Prop} {word word' : List Symbol}
    (h : Viable spells (word ++ word')) : Viable spells word := by
  obtain ⟨a, rest, h⟩ := h
  exact ⟨a, word' ++ rest, by rwa [List.append_assoc] at h⟩

theorem Viable.mono {spells : α → List Symbol → Prop} {spells' : β → List Symbol → Prop}
    (h : ∀ a word, spells a word → Viable spells' word) {word : List Symbol}
    (hword : Viable spells word) : Viable spells' word := by
  obtain ⟨a, rest, ha⟩ := hword
  exact (h a _ ha).of_append

theorem Viable.extend {spells : α → List Symbol → Prop} {spells' : β → List Symbol → Prop}
    {word : List Symbol} (h : Viable spells [])
    (hspells : ∀ a word', spells a word' → Viable spells' (word ++ word')) :
    Viable spells' word := by
  obtain ⟨a, rest, ha⟩ := h
  exact (hspells a _ ha).of_append

/-- The spellings of a result that may be left out. -/
@[simp]
def Maybe (stops : Prop) (spells : α → List Symbol → Prop) : Option α → List Symbol → Prop
  | none, word => stops ∧ word = []
  | some a, word => spells a word

namespace Parser

variable {parser : Parser} {bound : Nat}

/-- How the result of a step relates to the symbols ahead of the parser before it. -/
def Ending (parser : Parser) (spells : α → List Symbol → Prop) (bound : Nat) :
    EStateM.Result Halt Parser α → Prop
  | .ok a parser' => ∃ n, parser' = parser.skip n ∧ spells a (parser.ahead n)
  | .error halt parser' => ∃ n cause, parser' = parser.skip n ∧
      halt = .failure ⟨cause, (parser.skip n).position⟩ ∧ Viable spells (parser.ahead n) ∧
      (cause.isNesting →
        cause = .nestingTooDeep parser.options.maxNestingDepth ∧ bound ≤ parser.taken + n)

/-- From the given parser the step reads the spellings of its results.  It does not fail for want of
levels before the bound on the tokens taken. -/
def Reads (parser : Parser) (step : Step α) (spells : α → List Symbol → Prop) (bound : Nat) :
    Prop :=
  parser.Ending spells bound (step parser)

theorem le_skip_taken_add {levels : Nat} (h : bound ≤ parser.taken + levels) (n : Nat) :
    bound ≤ (parser.skip n).taken + levels := by
  rw [skip_taken]
  omega

namespace Reads

variable {step : Step α} {next : α → Step β} {spells : α → List Symbol → Prop}
  {whole : β → List Symbol → Prop}

theorem pure {a : α} (h : spells a []) : parser.Reads (Pure.pure a) spells bound := ⟨0, rfl, h⟩

theorem fail {cause : Cause} (hcause : cause.isNesting = false) (h : Viable spells []) :
    parser.Reads (Parser.fail cause) spells bound :=
  ⟨0, cause, rfl, rfl, h, by simp [hcause]⟩

theorem unexpected {expected : String} (h : Viable spells []) :
    parser.Reads (Parser.unexpected expected) spells bound :=
  ⟨0, _, rfl, rfl, h, by simp [Cause.isNesting]⟩

theorem tooDeep (h : Viable spells []) (hbound : bound ≤ parser.taken) :
    parser.Reads Parser.tooDeep spells bound :=
  ⟨0, _, rfl, rfl, h, fun _ ↦ ⟨rfl, hbound⟩⟩

theorem get {next : Parser → Step α} (h : parser.Reads (next parser) spells bound) :
    parser.Reads (MonadState.get >>= next) spells bound := h

theorem of_apply {other : Step α} (h : step parser = other parser)
    (hother : parser.Reads other spells bound) : parser.Reads step spells bound := by
  rwa [Reads, h]

theorem mono {spells' : α → List Symbol → Prop} {bound' : Nat}
    (h : parser.Reads step spells bound) (hspells : ∀ a word, spells a word → spells' a word)
    (hbound : bound' ≤ bound) : parser.Reads step spells' bound' := by
  unfold Reads at h ⊢
  cases hresult : step parser with
  | ok a parser' =>
    rw [hresult] at h
    obtain ⟨n, hn, ha⟩ := h
    exact ⟨n, hn, hspells _ _ ha⟩
  | error halt parser' =>
    rw [hresult] at h
    obtain ⟨n, cause, hn, hhalt, hviable, hcause⟩ := h
    refine ⟨n, cause, hn, hhalt, ?_, fun hnesting ↦ ?_⟩
    · exact hviable.mono fun a word ha ↦ ⟨a, [], by simpa using hspells a word ha⟩
    · exact ⟨(hcause hnesting).1, hbound.trans (hcause hnesting).2⟩

/-- Steps one after the other read their words one after the other. -/
theorem bind_of_eq (hstep : parser.Reads step spells bound)
    (hviable : ∀ n, Viable spells (parser.ahead n) → Viable whole (parser.ahead n))
    (hnext : ∀ a n, step parser = .ok a (parser.skip n) → spells a (parser.ahead n) →
      (parser.skip n).Reads (next a) (fun b word ↦ whole b (parser.ahead n ++ word)) bound) :
    parser.Reads (step >>= next) whole bound := by
  unfold Reads at hstep ⊢
  cases hresult : step parser with
  | ok a parser' =>
    rw [hresult] at hstep
    obtain ⟨n, rfl, ha⟩ := hstep
    have hend := hnext a n hresult ha
    rw [bind_of_ok next hresult]
    unfold Reads at hend
    cases hresult' : next a (parser.skip n) with
    | ok b parser' =>
      rw [hresult'] at hend
      obtain ⟨m, rfl, hb⟩ := hend
      exact ⟨n + m, skip_skip _ _ _, by rwa [ahead_add]⟩
    | error halt parser' =>
      rw [hresult'] at hend
      obtain ⟨m, cause, rfl, rfl, ⟨b, rest, hb⟩, hcause⟩ := hend
      refine ⟨n + m, cause, skip_skip _ _ _, by rw [skip_skip], ?_, fun hnesting ↦ ?_⟩
      · exact ⟨b, rest, by rwa [ahead_add, List.append_assoc]⟩
      · rw [skip_options, skip_taken, Nat.add_assoc] at hcause
        exact hcause hnesting
  | error halt parser' =>
    rw [hresult] at hstep
    obtain ⟨n, cause, hn, hhalt, hword, hcause⟩ := hstep
    rw [bind_of_error next hresult]
    exact ⟨n, cause, hn, hhalt, hviable n hword, hcause⟩

theorem bind (hstep : parser.Reads step spells bound)
    (hviable : ∀ a word, spells a word → Viable whole word)
    (hnext : ∀ a n, spells a (parser.ahead n) →
      (parser.skip n).Reads (next a) (fun b word ↦ whole b (parser.ahead n ++ word)) bound) :
    parser.Reads (step >>= next) whole bound :=
  hstep.bind_of_eq (fun _ hword ↦ hword.mono hviable) fun a n _ ha ↦ hnext a n ha

theorem bind_word {front : List Symbol}
    (hstep : parser.Reads step (fun _ word ↦ word = front) bound) (hviable : Viable whole front)
    (hnext : ∀ a n, n = front.length →
      (parser.skip n).Reads (next a) (fun b word ↦ whole b (front ++ word)) bound) :
    parser.Reads (step >>= next) whole bound := by
  refine hstep.bind ?_ ?_
  · rintro _ word rfl
    exact hviable
  · intro a n hn
    rw [hn]
    exact hnext a n (length_of_ahead_eq hn)

theorem map {f : α → β} (hstep : parser.Reads step spells bound)
    (hf : ∀ a word, spells a word → whole (f a) word) :
    parser.Reads (f <$> step) whole bound := by
  have heq : (f <$> step) parser = (step >>= fun a ↦ Pure.pure (f a)) parser := by
    rw [map_apply, bind_apply]
    rfl
  refine of_apply heq (hstep.bind ?_ ?_)
  · exact fun a word ha ↦ ⟨f a, [], by simpa using hf a word ha⟩
  · exact fun a n ha ↦ pure (by simpa using hf a _ ha)

/-- Taking a token reads it, whether or not the next one is malformed. -/
theorem advance (parser : Parser) (bound : Nat) :
    parser.Reads Parser.advance (fun _ word ↦ word = [parser.current.symbol]) bound := by
  unfold Reads
  rw [advance_apply]
  split
  · exact ⟨1, _, rfl, rfl, ⟨parser.current, [], by simp⟩, by simp [Cause.isNesting]⟩
  · exact ⟨1, rfl, rfl⟩

theorem discard {word : List Symbol}
    (hstep : parser.Reads step (fun _ word' ↦ word' = word) bound) :
    parser.Reads (Functor.discard step) (fun _ word' ↦ word' = word) bound :=
  hstep.map fun _ _ h ↦ h

/-- A token that is known to be a certain character is read as that character. -/
theorem takeChar (h : parser.Ready) {c : Char} (hkind : parser.current.kind = .char c)
    (bound : Nat) :
    parser.Reads (Functor.discard Parser.advance) (fun _ word ↦ word = [.char c]) bound := by
  rw [← h.symbol_char hkind]
  exact (advance parser bound).discard

theorem takeKeyword (h : parser.Ready) {keyword : Keyword}
    (hkind : parser.current.kind = .keyword keyword) (bound : Nat) :
    parser.Reads (Functor.discard Parser.advance) (fun _ word ↦ word = [.keyword keyword])
      bound := by
  rw [← h.symbol_keyword hkind]
  exact (advance parser bound).discard

theorem expectAs {kind : TokenKind} {expected : String} {symbol : Symbol}
    (hsymbol : parser.current.kind = kind → parser.current.symbol = symbol) (bound : Nat) :
    parser.Reads (Parser.expectAs kind expected) (fun _ word ↦ word = [symbol]) bound := by
  have heq := expectAs_apply kind expected parser
  by_cases hkind : parser.current.kind = kind
  · rw [if_pos hkind] at heq
    rw [← hsymbol hkind]
    exact of_apply heq (advance parser bound)
  · rw [if_neg hkind] at heq
    exact of_apply heq (unexpected ⟨parser.current, [symbol], rfl⟩)

theorem expectChar (h : parser.Ready) (c : Char) (bound : Nat) :
    parser.Reads (Functor.discard (Parser.expectChar c)) (fun _ word ↦ word = [.char c]) bound :=
  (expectAs h.symbol_char bound).discard

/-- A part and the token that closes it. -/
theorem bind_closed (h : parser.Ready) (hstep : parser.Reads step spells bound) (c : Char)
    (hviable : ∀ a word, spells a word → Viable whole (word ++ [.char c]))
    (hnext : ∀ a n word, spells a word →
      (parser.skip n).Reads (next a) (fun b rest ↦ whole b (word ++ .char c :: rest)) bound) :
    parser.Reads (step >>= fun a ↦ Functor.discard (Parser.expectChar c) >>= fun _ ↦ next a) whole
      bound := by
  refine hstep.bind (fun a word ha ↦ (hviable a word ha).of_append) fun a n ha ↦ ?_
  refine (expectChar (h.skip n) c bound).bind_word ?_ fun _ m _ ↦ ?_
  · obtain ⟨b, rest, hb⟩ := hviable a _ ha
    exact ⟨b, rest, by simpa using hb⟩
  · rw [skip_skip]
    simpa using hnext a (n + m) _ ha

/-- A part, the token that closes it, and what is made of the part. -/
theorem closed (h : parser.Ready) (hstep : parser.Reads step spells bound) (c : Char)
    (hwhole : ∀ a word, spells a word →
      ∃ b, next a = Pure.pure b ∧ whole b (word ++ [.char c])) :
    parser.Reads (step >>= fun a ↦ Functor.discard (Parser.expectChar c) >>= fun _ ↦ next a) whole
      bound := by
  refine hstep.bind_closed h c ?_ ?_
  · intro a word ha
    obtain ⟨b, -, hb⟩ := hwhole a word ha
    exact ⟨b, [], by simpa using hb⟩
  · intro a n word ha
    obtain ⟨b, heq, hb⟩ := hwhole a word ha
    rw [heq]
    exact pure hb

theorem expectKeyword (h : parser.Ready) (keyword : Keyword) (bound : Nat) :
    parser.Reads (Functor.discard (Parser.expect (.keyword keyword)))
      (fun _ word ↦ word = [.keyword keyword]) bound :=
  (expectAs h.symbol_keyword bound).discard

theorem expectClosing (h : parser.Ready) (bound : Nat) :
    parser.Reads (Functor.discard (Parser.expectAs (.char ')') "')' or ','"))
      (fun _ word ↦ word = [.char ')']) bound :=
  (expectAs h.symbol_char bound).discard

theorem isName_x : IsName "x" := by
  refine ⟨.identifier (.intro rfl (by simp)) (by simp [Ends]) ?_, by simp⟩
  intro keyword
  cases keyword <;> decide

theorem expectIdentifier (h : parser.Ready) (expected : String) (bound : Nat) :
    parser.Reads (Parser.expectIdentifier expected)
      (fun name word ↦ IsName name ∧ word = [.name name]) bound := by
  have heq := expectIdentifier_apply expected parser
  by_cases hkind : parser.current.kind = .identifier
  · rw [if_pos hkind] at heq
    have hsymbol : parser.current.symbol = .name parser.lexer.word := by
      rw [h.inStep.word_eq hkind, Symbol.name, Token.symbol, hkind]
    have hname : IsName parser.lexer.word := by
      rw [h.inStep.word_eq hkind]
      exact h.isName hkind
    refine of_apply heq ((advance parser bound).discard.bind ?_ ?_)
    · rintro _ word rfl
      exact ⟨_, [], hname, by simp [hsymbol]⟩
    · intro _ n hn
      exact pure ⟨hname, by simp [hn, hsymbol]⟩
  · rw [if_neg hkind] at heq
    exact of_apply heq (unexpected ⟨"x", [.name "x"], isName_x, rfl⟩)

theorem exists_of_ok {a : α} {parser' : Parser} (h : parser.Reads step spells bound)
    (heq : step parser = .ok a parser') :
    ∃ n, parser' = parser.skip n ∧ spells a (parser.ahead n) := by
  rwa [Reads, heq] at h

theorem exists_of_error {halt : Halt} {parser' : Parser} (h : parser.Reads step spells bound)
    (heq : step parser = .error halt parser') : ∃ n cause, parser' = parser.skip n ∧
      halt = .failure ⟨cause, (parser.skip n).position⟩ ∧ Viable spells (parser.ahead n) ∧
      (cause.isNesting →
        cause = .nestingTooDeep parser.options.maxNestingDepth ∧ bound ≤ parser.taken + n) := by
  rwa [Reads, heq] at h

/-- A step makes progress if whatever it yields is spelled with something before the end of
input. -/
theorem progresses {spells : α → List Symbol → Prop} {step : Step (Option α)}
    (stops : Parser → Prop)
    (h : ∀ parser : Parser, parser.Ready → parser.Reads step (Maybe (stops parser) spells) 0)
    (hspells : ∀ a word, spells a word →
      ∃ symbol rest, word = symbol :: rest ∧ symbol.kind ≠ .endOfInput) : Progresses step := by
  intro parser a parser' hready heq
  obtain ⟨n, rfl, ha⟩ := (h parser hready).exists_of_ok heq
  obtain ⟨symbol, rest, hword, hkind⟩ := hspells a _ ha
  cases n with
  | zero => cases hword
  | succ n =>
    rw [ahead_succ] at hword
    obtain ⟨rfl, -⟩ := List.cons.inj hword
    exact ⟨hready.skip _, parser.size_skip_lt n hkind⟩

theorem upTo {spells : α → List Symbol → Prop} {step : Step (Option α)} (stops : Nat → Prop)
    (hstep : ∀ n, (parser.skip n).Reads step (Maybe (stops n) spells) bound) (count : Nat) :
    parser.Reads (Parser.upTo step count) (Chain spells) bound := by
  induction count generalizing parser stops with
  | zero => exact pure .nil
  | succ count ih =>
    rw [Parser.upTo]
    refine (hstep 0).bind ?_ ?_
    · intro result word hresult
      cases result with
      | none => exact ⟨[], [], by rw [hresult.2]; exact .nil⟩
      | some a =>
        have ha : spells a word := hresult
        exact ⟨[a], [], by simpa using Chain.singleton ha⟩
    · intro result n hresult
      rw [skip_zero] at hresult ⊢
      cases result with
      | none => exact pure (by rw [hresult.2]; exact .nil)
      | some a =>
        have ha : spells a (parser.ahead n) := hresult
        refine (ih (fun m ↦ stops (n + m)) fun m ↦ ?_).bind ?_ ?_
        · rw [skip_skip]
          exact hstep (n + m)
        · exact fun as word has ↦ ⟨a :: as, [], by simpa using Chain.cons ha has⟩
        · intro as m has
          exact pure (by simpa using Chain.cons ha has)

theorem many {spells : α → List Symbol → Prop} {step : Step (Option α)} (stops : Nat → Prop)
    (hstep : ∀ n, (parser.skip n).Reads step (Maybe (stops n) spells) bound) :
    parser.Reads (Parser.many step) (Chain spells) bound :=
  get (upTo stops hstep _)

end Reads

end Parser

end ExprLang
