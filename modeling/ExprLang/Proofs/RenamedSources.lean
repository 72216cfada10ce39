import ExprLang.Proofs.CorrectPrefix
import ExprLang.Proofs.MirroringItems

/-!
# Sources Under Other Names

A parse depends on the kinds of the tokens, on the texts of those that are no identifiers, and on
nothing else.  The names of identifiers pass through to the tree and to the causes that quote them;
blanks and comments have no influence.
-/

namespace ExprLang

variable {naming : String → String}

/-- The cause with the given token where it quotes one. -/
def Cause.quoting (token : Token) : Cause → Cause
  | malformedNumber _ => .malformedNumber token.lexeme
  | unexpectedToken expected _ => .unexpectedToken expected token.describe
  | unknownExpression _ => .unknownExpression token.describe
  | cause => cause

theorem Token.describe_eq_of_symbol_eq {token token' : Token} (h : token.symbol = token'.symbol) :
    token.describe = token'.describe := by
  obtain ⟨hkind, hlexeme⟩ := Symbol.mk.inj h
  rw [describe, describe, hkind, hlexeme]

theorem Cause.quoting_eq_of_symbol_eq {token token' : Token} (h : token.symbol = token'.symbol)
    (cause : Cause) : cause.quoting token = cause.quoting token' := by
  have hlexeme : token.lexeme = token'.lexeme := congrArg Symbol.lexeme h
  have hdescribe := Token.describe_eq_of_symbol_eq h
  cases cause <;> simp only [quoting, hlexeme, hdescribe]

/-- The token with another name, if it is an identifier. -/
def Token.rename (naming : String → String) (token : Token) : Token :=
  if token.kind = .identifier then { token with lexeme := naming token.lexeme } else token

theorem Token.symbol_rename (token : Token) :
    (token.rename naming).symbol = token.symbol.rename naming := by
  unfold Token.rename Symbol.rename
  rw [symbol_kind]
  split
  · next hkind => rw [symbol, hkind]; rfl
  · rfl

namespace Parser

/-- The failures of a fault at two tokens differ in what they quote and where they are. -/
theorem Fault.exists_cause (fault : Fault) {parser twin : Parser} {diagnostic : Diagnostic}
    (h : fault.halt parser = .failure diagnostic)
    (hlimit : twin.options.maxNestingDepth = parser.options.maxNestingDepth) : ∃ cause : Cause,
      fault.halt parser = .failure ⟨cause.quoting parser.current, parser.position⟩ ∧
        fault.halt twin = .failure ⟨cause.quoting twin.current, twin.position⟩ := by
  cases fault with
  | malformed => exact ⟨.malformedNumber "", rfl, rfl⟩
  | unexpected expected => exact ⟨.unexpectedToken expected "", rfl, rfl⟩
  | unknown => exact ⟨.unknownExpression "", rfl, rfl⟩
  | missing after => exact ⟨.expectedExpression after, rfl, rfl⟩
  | tooDeep =>
    exact ⟨.nestingTooDeep parser.options.maxNestingDepth, rfl, by rw [halt, hlimit]; rfl⟩
  | defect => cases h

/-- With the same levels twins read the same items or halt at the same token. -/
theorem Twins.items {parser twin : Parser} (h : parser.Twins naming twin)
    (hroom : parser.room = twin.room)
    (hlimit : twin.options.maxNestingDepth = parser.options.maxNestingDepth) :
    (∃ n items, many item parser = .ok items (parser.skip n) ∧
      many item twin = .ok (items.map (Item.rename naming)) (twin.skip n)) ∨
    ∃ (n : Nat) (cause : Cause), many item parser = .error (.failure
        ⟨cause.quoting (parser.skip n).current, (parser.skip n).position⟩) (parser.skip n) ∧
      many item twin = .error (.failure
        ⟨cause.quoting (twin.skip n).current, (twin.skip n).position⟩) (twin.skip n) := by
  cases Mirrors.items h with
  | ok n items hitems hitems' => exact .inl ⟨n, items, hitems, hitems'⟩
  | halt n fault hhalt hhalt' =>
    have hreads := Reads.items parser.options h.ready (Nat.zero_le _) False.elim
    obtain ⟨_, _, -, hfailure, -⟩ := hreads.exists_of_error hhalt
    have hlimit' : (twin.skip n).options.maxNestingDepth =
        (parser.skip n).options.maxNestingDepth := by rw [skip_options, skip_options, hlimit]
    obtain ⟨cause, heq, heq'⟩ := fault.exists_cause hfailure hlimit'
    exact .inr ⟨n, cause, by rw [hhalt, heq], by rw [hhalt', heq']⟩
  | short n m hlt => exact absurd hlt (by omega)

theorem skip_start_symbol (source : String) (options : Options) (n : Nat) :
    ((start source options).skip n).current.symbol =
      (sourceSymbols source)[n]?.getD .endOfInput := by
  by_cases hn : n < (sourceSymbols source).length
  · have hahead := ahead_start source options hn
    have hlength : n < ((start source options).ahead (n + 1)).length := by simp
    rw [← getElem_ahead _ hlength, List.getElem?_eq_getElem hn, Option.getD_some]
    simp only [hahead, List.getElem_take]
  · rw [List.getElem?_eq_none (not_lt.mp hn), Option.getD_none]
    apply ((ready_start source options).skip n).symbol_endOfInput
    rw [skip_start_kind_eq_endOfInput_iff]
    omega

theorem twins_start_of_rename {source renamed : String}
    (h : sourceSymbols renamed = (sourceSymbols source).map (Symbol.rename naming))
    (options : Options) : (start source options).Twins naming (start renamed options) where
  ready := ready_start source options
  ready' := ready_start renamed options
  symbol n := by
    rw [skip_start_symbol, skip_start_symbol, h, List.getElem?_map]
    cases (sourceSymbols source)[n]? <;> rfl
  room_le := le_rfl

theorem lt_length_of_error {source : String} {options : Options} {halt : Halt} {n : Nat}
    (h : many item (start source options) = .error halt ((start source options).skip n)) :
    n < (sourceSymbols source).length := by
  obtain ⟨m, cause, hskip, -, hviable, -⟩ := (reads_start source options).exists_of_error h
  obtain rfl := skip_injective hskip
  exact lt_length_of_proper (Completable.proper hviable)

end Parser

/-- The parse of a source fails at the token of the given index, for the given cause. -/
def FailsAt (source : String) (options : Options) (k : Nat) (token : Token) (cause : Cause) :
    Prop :=
  (Lexer.ofSource source options.fileName).tokens[k]? = some token ∧
    (parse source options).result =
      .error (.failure ⟨cause, ⟨token.start, options.fileName.getD Lexer.defaultFile⟩⟩)

open ExprLang.Parser in
theorem failsAt_of_result {source : String} {options : Options} {k : Nat} {cause : Cause}
    (hk : k < (sourceSymbols source).length)
    (h : (parse source options).result =
      .error (.failure ⟨cause, ((start source options).skip k).position⟩)) :
    FailsAt source options k ((start source options).skip k).current cause := by
  rw [length_sourceSymbols source options.fileName] at hk
  constructor
  · rw [List.getElem?_eq_getElem hk, Lexer.tokens_getElem, skip_start_current]
  · rw [h, skip_start_position, skip_start_current]
    rfl

open ExprLang.Parser in
/-- If the tokens of two sources agree up to the names of identifiers, either both parses succeed
and the trees agree up to these names, or both fail at the same token for the same cause, which may
quote the token under its own name. -/
theorem parse_rename (naming : String → String) (source renamed : String) (options : Options)
    (h : sourceSymbols renamed = (sourceSymbols source).map (Symbol.rename naming)) :
    ((parse source options).result = .ok (.ofItems options (parse source options).items) ∧
      (parse renamed options).result =
        .ok (.ofItems options ((parse source options).items.map (Item.rename naming)))) ∨
    ∃ (k : Nat) (token token' : Token) (cause : Cause),
      FailsAt source options k token (cause.quoting token) ∧
        FailsAt renamed options k token' (cause.quoting (token.rename naming)) := by
  have htwins := twins_start_of_rename h options
  have hquoting (cause : Cause) (n : Nat) :
      cause.quoting (((start source options).skip n).current.rename naming) =
        cause.quoting ((start renamed options).skip n).current := by
    apply cause.quoting_eq_of_symbol_eq
    rw [Token.symbol_rename, htwins.symbol]
  by_cases hmalformed : (start source options).current.kind = .malformedNumber
  · have hmalformed' := htwins.kind_eq.trans hmalformed
    have hpos : 0 < (sourceSymbols source).length := by
      rw [length_sourceSymbols source none]
      exact Lexer.length_tokens_pos _
    refine .inr ⟨0, _, _, .malformedNumber "", failsAt_of_result hpos ?_,
      failsAt_of_result (by rwa [h, List.length_map]) ?_⟩
    · exact parse_of_malformed hmalformed
    · rw [hquoting]
      exact parse_of_malformed hmalformed'
  · have hmalformed' : (start renamed options).current.kind ≠ .malformedNumber := by
      rwa [htwins.kind_eq]
    rcases htwins.items rfl rfl with ⟨n, items, hitems, hitems'⟩ | ⟨n, cause, hitems, hitems'⟩
    · rw [parse_of_many hmalformed hitems, parse_of_many hmalformed' hitems']
      exact .inl ⟨rfl, rfl⟩
    · refine .inr ⟨n, _, _, cause, failsAt_of_result (lt_length_of_error hitems) ?_,
        failsAt_of_result (lt_length_of_error hitems') ?_⟩
      · rw [parse_of_not_malformed hmalformed, hitems]
        rfl
      · rw [parse_of_not_malformed hmalformed', hitems', hquoting]
        rfl

theorem parse_rename_unexpected_name :
    let naming := fun name : String ↦ name ++ "1"
    sourceSymbols "f1( x1 y1);# none" = (sourceSymbols "f(x y);").map (Symbol.rename naming) ∧
      (((parse "f(x y);" .default).result =
          .ok (.ofItems .default (parse "f(x y);" .default).items) ∧
        (parse "f1( x1 y1);# none" .default).result =
          .ok (.ofItems .default ((parse "f(x y);" .default).items.map (Item.rename naming)))) ∨
      ∃ (k : Nat) (token token' : Token) (cause : Cause),
        FailsAt "f(x y);" .default k token (cause.quoting token) ∧
          FailsAt "f1( x1 y1);# none" .default k token' (cause.quoting (token.rename naming))) := by
  have h : sourceSymbols "f1( x1 y1);# none" =
      (sourceSymbols "f(x y);").map (Symbol.rename fun name ↦ name ++ "1") := by decide
  exact ⟨h, parse_rename _ _ _ .default h⟩

end ExprLang
