import ExprLang.Proofs.Reading

/-!
# What Steps Recognize

A step recognizes a word as the spelling of a result in front of further symbols.  The law covers
parsers that face only the start of these symbols: the step does not halt before that start has been
taken, unless the result needs more levels than there are.
-/

namespace ExprLang

variable {α β : Type}

namespace Parser

variable {parser : Parser}

/-- The step has failed for want of levels. -/
def StopsTooDeep (result : EStateM.Result Halt Parser α) : Prop :=
  ∃ limit position parser', result = .error (.failure ⟨.nestingTooDeep limit, position⟩) parser'

/-- From the given parser the step recognizes the word as the spelling of the result, if the levels
suffice. -/
def Recognizes (parser : Parser) (step : Step α) (a : α) (word rest : List Symbol) (fits : Prop) :
    Prop :=
  ∀ n, parser.ahead n <+: word ++ rest →
    (∀ symbol ∈ parser.ahead n, symbol.kind ≠ .malformedNumber) →
    ¬ fits ∧ StopsTooDeep (step parser) ∨
      if word.length < n then fits ∧ step parser = .ok a (parser.skip word.length)
      else parser.taken + n ≤ (leaving (step parser)).taken

theorem StopsTooDeep.bind {step : Step α} (h : StopsTooDeep (step parser)) (next : α → Step β) :
    StopsTooDeep ((step >>= next) parser) := by
  obtain ⟨limit, position, parser', h⟩ := h
  exact ⟨limit, position, parser', bind_of_error next h⟩

theorem leaving_taken_bind_le (step : Step α) (next : α → Step β) [∀ a, Skips (next a)]
    (parser : Parser) :
    (leaving (step parser)).taken ≤ (leaving ((step >>= next) parser)).taken := by
  rw [bind_apply]
  cases step parser with
  | ok a parser' => exact Skips.taken_le (next a) parser'
  | error halt parser' => exact le_rfl

theorem Progresses.leaving_taken_le {step : Step (Option α)} [Skips step] (h : Progresses step)
    (hready : parser.Ready) (next : List α → Step β) [∀ as, Skips (next as)] :
    (leaving (step parser)).taken ≤ (leaving ((many step >>= next) parser)).taken := by
  have hle := leaving_taken_bind_le step (further step) parser
  rw [← h.many_eq hready] at hle
  exact hle.trans (leaving_taken_bind_le (many step) next parser)

theorem ahead_eq_of_prefix {n : Nat} {word rest : List Symbol} (h : parser.ahead n <+: word ++ rest)
    (hlength : word.length ≤ n) : parser.ahead word.length = word := by
  obtain ⟨m, rfl⟩ := Nat.exists_eq_add_of_le hlength
  obtain ⟨tail, htail⟩ := h
  rw [ahead_add, List.append_assoc] at htail
  exact (List.append_inj htail (length_ahead _ _)).1

namespace Recognizes

variable {step : Step α} {next : α → Step β} {a : α} {b : β} {word word' rest : List Symbol}
  {fits fits' : Prop}

theorem of_apply {other : Step α} (h : step parser = other parser)
    (hother : parser.Recognizes other a word rest fits) :
    parser.Recognizes step a word rest fits := by
  unfold Recognizes at hother ⊢
  rwa [h]

theorem get {next : Parser → Step α} (h : parser.Recognizes (next parser) a word rest fits) :
    parser.Recognizes (MonadState.get >>= next) a word rest fits := h

theorem pure : parser.Recognizes (Pure.pure a) a [] rest True := by
  intro n _ _
  right
  split
  · exact ⟨trivial, rfl⟩
  · next hn =>
    have hzero : n = 0 := by simpa using hn
    simp [hzero]

theorem tooDeep (hfits : ¬ fits) : parser.Recognizes Parser.tooDeep a word rest fits :=
  fun _ _ _ ↦ .inl ⟨hfits, _, _, _, rfl⟩

theorem congr (h : parser.Recognizes step a word rest fits) (hfits : fits ↔ fits') :
    parser.Recognizes step a word rest fits' := by
  rwa [← propext hfits]

/-- Whoever faces nothing has taken it, so the first symbol is known. -/
theorem of_head [Skips step] {symbol : Symbol} {tail : List Symbol}
    (hword : word ++ rest = symbol :: tail)
    (h : parser.current.symbol = symbol → parser.Recognizes step a word rest fits) :
    parser.Recognizes step a word rest fits := by
  intro n hahead hproper
  cases n with
  | zero =>
    right
    rw [if_neg (Nat.not_lt_zero _)]
    exact Skips.taken_le step parser
  | succ n =>
    have hstarts := hahead
    rw [hword, ahead_succ, List.cons_prefix_cons] at hstarts
    exact h hstarts.1 (n + 1) hahead hproper

/-- If a step looks at two symbols, whoever faces only the first one still has it taken. -/
theorem of_two [Skips step] {first second : Symbol} {tail : List Symbol}
    (hword : word ++ rest = first :: second :: tail) (hne : word ≠ [])
    (hone : parser.current.symbol = first →
      ¬ fits ∧ StopsTooDeep (step parser) ∨ parser.taken < (leaving (step parser)).taken)
    (htwo : parser.current.symbol = first → parser.shifted.current.symbol = second →
      parser.Recognizes step a word rest fits) :
    parser.Recognizes step a word rest fits := by
  apply of_head hword
  intro hfirst n hahead hproper
  match n with
  | 0 =>
    right
    rw [if_neg (Nat.not_lt_zero _)]
    exact Skips.taken_le step parser
  | 1 =>
    have hlength := List.length_pos_iff.mpr hne
    rw [if_neg (by omega)]
    exact hone hfirst
  | n + 2 =>
    have hstarts := hahead
    rw [hword, ahead_succ, ahead_succ, List.cons_prefix_cons, List.cons_prefix_cons] at hstarts
    exact htwo hfirst hstarts.2.1 (n + 2) hahead hproper

/-- Steps one after the other recognize their words one after the other. -/
theorem bind [∀ a, Skips (next a)] (hstep : parser.Recognizes step a word (word' ++ rest) fits)
    (hnext : fits → parser.ahead word.length = word →
      (parser.skip word.length).Recognizes (next a) b word' rest fits') :
    parser.Recognizes (step >>= next) b (word ++ word') rest (fits ∧ fits') := by
  intro n hahead hproper
  rw [List.append_assoc] at hahead
  rw [List.length_append]
  obtain ⟨hfits, hdeep⟩ | hstep := hstep n hahead hproper
  · exact .inl ⟨fun h ↦ hfits h.1, hdeep.bind next⟩
  · split at hstep
    · next hlt =>
      obtain ⟨hfits, hok⟩ := hstep
      have hfront := ahead_eq_of_prefix hahead hlt.le
      obtain ⟨m, rfl⟩ := Nat.exists_eq_add_of_le hlt.le
      rw [ahead_add, hfront, List.prefix_append_right_inj] at hahead
      rw [ahead_add] at hproper
      rw [bind_of_ok next hok]
      obtain ⟨hfits', hdeep⟩ | hnext := hnext hfits hfront m hahead
        fun symbol hsymbol ↦ hproper symbol (List.mem_append_right _ hsymbol)
      · exact .inl ⟨fun h ↦ hfits' h.2, hdeep⟩
      · right
        split at hnext
        · rw [if_pos (by omega), ← skip_skip]
          exact ⟨⟨hfits, hnext.1⟩, hnext.2⟩
        · rw [if_neg (by omega)]
          rw [skip_taken] at hnext
          omega
    · right
      rw [if_neg (by omega)]
      exact hstep.trans (leaving_taken_bind_le step next parser)

theorem map {f : α → β} (hstep : parser.Recognizes step a word rest fits) :
    parser.Recognizes (f <$> step) (f a) word rest fits := by
  intro n hahead hproper
  rw [map_apply]
  obtain ⟨hfits, limit, position, parser', hdeep⟩ | hstep := hstep n hahead hproper
  · exact .inl ⟨hfits, limit, position, parser', by rw [hdeep]⟩
  · right
    split at hstep
    · next hlt =>
      rw [if_pos hlt, hstep.2]
      exact ⟨hstep.1, rfl⟩
    · next hlt =>
      rw [if_neg hlt]
      cases hresult : step parser with
      | ok a parser' => rwa [hresult] at hstep
      | error halt parser' => rwa [hresult] at hstep

theorem discard (hstep : parser.Recognizes step a word rest fits) :
    parser.Recognizes (Functor.discard step) () word rest fits :=
  hstep.map

theorem bind_symbol [∀ a, Skips (next a)] {symbol : Symbol}
    (hstep : parser.Recognizes step a [symbol] (word ++ rest) True)
    (hnext : (parser.skip 1).Recognizes (next a) b word rest fits) :
    parser.Recognizes (step >>= next) b (symbol :: word) rest fits :=
  (hstep.bind fun _ _ ↦ hnext).congr (iff_of_eq (true_and _))

theorem bind_last [∀ a, Skips (next a)] (hstep : parser.Recognizes step a word rest fits)
    (hnext : (parser.skip word.length).Recognizes (next a) b [] rest True) :
    parser.Recognizes (step >>= next) b word rest fits := by
  have hbind := hstep.bind fun _ _ ↦ hnext
  rw [List.append_nil] at hbind
  exact hbind.congr (iff_of_eq (and_true _))

theorem advance (parser : Parser) (rest : List Symbol) :
    parser.Recognizes Parser.advance parser.current [parser.current.symbol] rest True := by
  intro n hahead hproper
  right
  rw [advance_apply]
  split
  · next hlt =>
    rw [List.length_singleton] at hlt
    obtain ⟨n, rfl⟩ := Nat.exists_eq_add_of_le hlt
    have hkind : parser.shifted.current.kind ≠ .malformedNumber := by
      apply hproper parser.shifted.current.symbol
      simp [ahead_add, ahead_succ]
    rw [if_neg hkind]
    exact ⟨trivial, rfl⟩
  · next hlt =>
    rw [List.length_singleton] at hlt
    split
    · rw [leaving_error, shifted_taken]
      omega
    · rw [leaving_ok, shifted_taken]
      omega

theorem discard_advance {symbol : Symbol} (h : parser.current.symbol = symbol)
    (rest : List Symbol) :
    parser.Recognizes (Functor.discard Parser.advance) () [symbol] rest True := by
  rw [← h]
  exact (advance parser rest).discard

theorem expectAs {kind : TokenKind} {expected : String} [Text.OneLine expected] {symbol : Symbol}
    (hkind : symbol.kind = kind) :
    parser.Recognizes (Functor.discard (Parser.expectAs kind expected)) () [symbol] rest True := by
  apply of_head rfl
  intro hsymbol
  have hcurrent : parser.current.kind = kind := by rw [← hkind, ← hsymbol, Token.symbol_kind]
  refine of_apply ?_ (discard_advance hsymbol rest)
  rw [discard_apply, discard_apply, expectAs_apply, if_pos hcurrent]

section

variable {step : Step (Option α)} {as : List α}

theorem many_nil [Skips step] (hprogress : Progresses step) (h : parser.Ready)
    (hstep : parser.Recognizes step none [] rest fits) :
    parser.Recognizes (Parser.many step) [] [] rest fits :=
  of_apply (hprogress.many_eq h) (hstep.bind_last pure)

theorem many_cons [Skips step] (hprogress : Progresses step) (h : parser.Ready)
    (hstep : parser.Recognizes step (some a) word (word' ++ rest) fits)
    (hmany : fits → (parser.skip word.length).Recognizes (Parser.many step) as word' rest fits') :
    parser.Recognizes (Parser.many step) (a :: as) (word ++ word') rest (fits ∧ fits') :=
  of_apply (hprogress.many_eq h) (hstep.bind fun hfits _ ↦ (hmany hfits).map)

theorem many_bind_nil [Skips step] {next : List α → Step β} [∀ as, Skips (next as)]
    (hprogress : Progresses step) (h : parser.Ready)
    (hstep : parser.Recognizes step none [] (word ++ rest) True)
    (hnext : parser.Recognizes (next []) b word rest fits) :
    parser.Recognizes (Parser.many step >>= next) b word rest fits :=
  ((many_nil hprogress h hstep).bind fun _ _ ↦ hnext).congr (iff_of_eq (true_and _))

theorem many_bind_cons [Skips step] {next : List α → Step β} [∀ as, Skips (next as)]
    (hprogress : Progresses step) (h : parser.Ready)
    (hstep : parser.Recognizes step (some a) word (word' ++ rest) fits)
    (hnext : fits → (parser.skip word.length).Recognizes
      (Parser.many step >>= fun as ↦ next (a :: as)) b word' rest fits') :
    parser.Recognizes (Parser.many step >>= next) b (word ++ word') rest (fits ∧ fits') := by
  have heq : (Parser.many step >>= next) parser =
      (step >>= fun result ↦ further step result >>= next) parser := by
    rw [← bind_assoc, bind_apply, hprogress.many_eq h, bind_apply (step >>= further step)]
  refine of_apply heq (hstep.bind fun hfits _ ↦ of_apply ?_ (hnext hfits))
  simp [further]

end

end Recognizes

end Parser

end ExprLang
