import ExprLang.Proofs.RecognizingItems

/-!
# The Language of the Parser

The parser accepts exactly the sources that the grammar derives, and builds the derived unit, as
long as the derivation is not deeper than the limit.
-/

namespace ExprLang

/-- The tokens of a source as the grammar sees them. -/
def sourceSymbols (source : String) : List Symbol :=
  (Lexer.ofSource source none).tokens.map Token.symbol

theorem tokens_ofSource (source : String) (file : Option String) :
    (Lexer.ofSource source file).tokens = (Lexer.ofSource source none).tokens := by
  have htokens : Tokenizes 0 source.toList (Lexer.ofSource source none).tokens :=
    tokenizes_tokens (Lexer.ofSource source none)
  exact (tokens_of_tokenizes htokens (Lexer.ofSource source file) rfl rfl).symm

namespace Parser

/-- The parser at the first token of a source, whatever that is. -/
def start (source : String) (options : Options) : Parser :=
  ⟨(Lexer.ofSource source options.fileName).next.2,
    (Lexer.ofSource source options.fileName).next.1, 0, options, 0, .default⟩

variable (source : String) (options : Options)

theorem ready_start : (start source options).Ready := ⟨⟨_, rfl, rfl⟩, rfl⟩

@[simp]
theorem start_options : (start source options).options = options := rfl

@[simp]
theorem start_taken : (start source options).taken = 0 := rfl

@[simp]
theorem start_room : (start source options).room = options.maxNestingDepth := rfl

theorem ofSource_eq : ofSource source options =
    if (start source options).current.kind = .malformedNumber then
      .error ⟨.malformedNumber (start source options).current.lexeme,
        (start source options).position⟩
    else .ok (start source options) := by
  change (start source options).check.map (fun _ ↦ start source options) = _
  rw [check]
  by_cases hkind : (start source options).current.kind = .malformedNumber
  · rw [if_pos hkind, if_pos hkind]
    rfl
  · rw [if_neg hkind, if_neg hkind]
    rfl

theorem skip_start_current (n : Nat) : ((start source options).skip n).current =
    (Lexer.ofSource source options.fileName).token n := by
  cases n with
  | zero => rfl
  | succ n => rw [skip_succ_current, Lexer.token_succ, start]

theorem skip_start_position (n : Nat) : ((start source options).skip n).position =
    ⟨((Lexer.ofSource source options.fileName).token n).start,
      (Lexer.ofSource source options.fileName).file⟩ := by
  rw [position, skip_start_current, skip_lexer, Lexer.after_file]
  rfl

theorem ahead_start {n : Nat} (h : n ≤ (sourceSymbols source).length) :
    (start source options).ahead n = (sourceSymbols source).take n := by
  apply List.ext_getElem (by simp [h])
  intro i hi hi'
  have hlength : i < (Lexer.ofSource source options.fileName).tokens.length := by
    simp only [List.length_take, sourceSymbols, List.length_map] at hi'
    rw [tokens_ofSource]
    omega
  rw [getElem_ahead, skip_start_current, ← Lexer.tokens_getElem _ _ hlength]
  simp [sourceSymbols, tokens_ofSource source options.fileName]

/-- What a reading yields if nothing is told. -/
def Reading.outcome (reading : Reading) : EStateM.Result Halt Parser (List Item) :=
  match reading.ending with
  | .ok () parser => .ok reading.items parser
  | .error halt parser => .error halt parser

theorem upTo_item_eq (n : Nat) (parser : Parser) :
    upTo item n parser = (itemsUpTo n parser).outcome := by
  induction n generalizing parser with
  | zero => rfl
  | succ n ih =>
    rw [upTo_succ_apply, itemsUpTo]
    cases hitem : item parser with
    | error halt parser' => rfl
    | ok result parser' =>
      cases result with
      | none => rfl
      | some item =>
        change (List.cons item <$> upTo Parser.item n) parser' = _
        rw [map_apply, ih, Reading.outcome, Reading.outcome]
        dsimp only
        cases (itemsUpTo n parser').ending <;> rfl

/-- A reading tells of its items in their order. -/
theorem told_itemsUpTo (n : Nat) (parser : Parser) :
    (itemsUpTo n parser).told = (itemsUpTo n parser).items.filterMap Event.ofItem? := by
  induction n generalizing parser with
  | zero => rfl
  | succ n ih =>
    rw [itemsUpTo]
    cases item parser with
    | error halt parser' => rfl
    | ok result parser' =>
      cases result with
      | none => rfl
      | some item =>
        dsimp only
        rw [ih]
        cases hevent : Event.ofItem? item <;> simp [hevent]

theorem many_item_eq (parser : Parser) : many item parser = parser.items.outcome :=
  upTo_item_eq _ parser

end Parser

/-- What a parse yields, given how the items have been read. -/
def unitOf (options : Options) :
    EStateM.Result Halt Parser (List Item) → Except Halt SourceUnit
  | .ok items _ => .ok (.ofItems options items)
  | .error halt _ => .error halt

theorem parse_of_malformed {source : String} {options : Options}
    (h : (Parser.start source options).current.kind = .malformedNumber) :
    (parse source options).result = .error (.failure
      ⟨.malformedNumber (Parser.start source options).current.lexeme,
        (Parser.start source options).position⟩) := by
  rw [parse, Parser.ofSource_eq, if_pos h]

theorem parse_eq_ofReading {source : String} {options : Options}
    (h : (Parser.start source options).current.kind ≠ .malformedNumber) :
    parse source options = .ofReading options (Parser.start source options).items := by
  rw [parse, Parser.ofSource_eq, if_neg h]

theorem parse_of_not_malformed {source : String} {options : Options}
    (h : (Parser.start source options).current.kind ≠ .malformedNumber) :
    (parse source options).result =
      unitOf options (Parser.many Parser.item (Parser.start source options)) := by
  rw [parse_eq_ofReading h, Parser.many_item_eq, Parse.ofReading, Parser.Reading.outcome]
  cases (Parser.start source options).items.ending <;> rfl

theorem parse_of_many {source : String} {options : Options} {items : List Item} {parser' : Parser}
    (hmalformed : (Parser.start source options).current.kind ≠ .malformedNumber)
    (h : Parser.many Parser.item (Parser.start source options) = .ok items parser') :
    parse source options =
      ⟨items, items.filterMap Event.ofItem?, .ok (.ofItems options items)⟩ := by
  rw [parse_eq_ofReading hmalformed, Parse.ofReading]
  have htold : (Parser.start source options).items.told =
      (Parser.start source options).items.items.filterMap Event.ofItem? := Parser.told_itemsUpTo _ _
  rw [Parser.many_item_eq, Parser.Reading.outcome] at h
  cases hending : (Parser.start source options).items.ending with
  | ok _ parser'' =>
    rw [hending] at h
    obtain ⟨rfl, -⟩ := EStateM.Result.ok.inj h
    rw [htold]
  | error halt parser'' => simp [hending] at h

/-- An accepted source has been read item by item up to its end. -/
theorem exists_items_of_parse {source : String} {options : Options} {unit : SourceUnit}
    (h : (parse source options).result = .ok unit) :
    (Parser.start source options).current.kind ≠ .malformedNumber ∧ ∃ items parser',
      Parser.many Parser.item (Parser.start source options) = .ok items parser' ∧
        unit = .ofItems options items := by
  by_cases hmalformed : (Parser.start source options).current.kind = .malformedNumber
  · rw [parse_of_malformed hmalformed] at h
    cases h
  · rw [parse_of_not_malformed hmalformed] at h
    cases hitems : Parser.many Parser.item (Parser.start source options) with
    | error halt parser' =>
      rw [hitems] at h
      cases h
    | ok items parser' =>
      rw [hitems] at h
      exact ⟨hmalformed, items, parser', rfl, (Except.ok.inj h).symm⟩

/-- A source is refused at its first token or while its items are read. -/
theorem parse_error_cases {source : String} {options : Options} {halt : Halt}
    (h : (parse source options).result = .error halt) :
    ((Parser.start source options).current.kind = .malformedNumber ∧ halt = .failure
      ⟨.malformedNumber (Parser.start source options).current.lexeme,
        (Parser.start source options).position⟩) ∨
    (Parser.start source options).current.kind ≠ .malformedNumber ∧
      ∃ parser', Parser.many Parser.item (Parser.start source options) = .error halt parser' := by
  by_cases hmalformed : (Parser.start source options).current.kind = .malformedNumber
  · rw [parse_of_malformed hmalformed] at h
    exact .inl ⟨hmalformed, (Except.error.inj h).symm⟩
  · rw [parse_of_not_malformed hmalformed] at h
    cases hitems : Parser.many Parser.item (Parser.start source options) with
    | ok items parser' =>
      rw [hitems] at h
      cases h
    | error halt' parser' =>
      rw [hitems] at h
      obtain rfl := Except.error.inj h
      exact .inr ⟨hmalformed, parser', rfl⟩

/-! ## Soundness -/

theorem length_sourceSymbols (source : String) (file : Option String) :
    (sourceSymbols source).length = (Lexer.ofSource source file).tokens.length := by
  rw [sourceSymbols, List.length_map, ← tokens_ofSource source file]

namespace Parser

variable {source : String} {options : Options}

/-- What reading the items of a source tells about it. -/
theorem reads_start (source : String) (options : Options) : (start source options).Reads (many item)
    (fun items word ↦ SpellsUnit options items (word ++ [.endOfInput]))
    (options.maxNestingDepth - 1) := by
  have hready := ready_start source options
  have hbound : options.maxNestingDepth - 1 ≤
      (start source options).taken + ((start source options).room - 1) := by simp
  have hitems := Reads.items options hready hbound False.elim
  exact hitems.mono (fun items word h ↦ h.1) le_rfl

theorem skip_start_kind_eq_endOfInput_iff (n : Nat) :
    ((start source options).skip n).current.kind = .endOfInput ↔
      (sourceSymbols source).length ≤ n + 1 := by
  rw [skip_start_current, Lexer.token_kind_eq_endOfInput_iff,
    length_sourceSymbols source options.fileName]

/-- The end of input is not proper, so it stands behind proper symbols. -/
theorem lt_length_of_proper {n : Nat}
    (hproper : ∀ symbol ∈ (start source options).ahead n, symbol.Proper) :
    n < (sourceSymbols source).length := by
  apply Nat.lt_of_not_le
  intro hle
  have hpos := Lexer.length_tokens_pos (Lexer.ofSource source none)
  rw [← length_sourceSymbols source none] at hpos
  obtain ⟨i, hi⟩ := Nat.exists_eq_succ_of_ne_zero hpos.ne'
  have hi' : i < ((start source options).ahead n).length := by
    rw [length_ahead]
    omega
  have hsymbol := hproper _ (List.getElem_mem hi')
  rw [getElem_ahead] at hsymbol
  exact hsymbol.1.kind_ne_endOfInput ((skip_start_kind_eq_endOfInput_iff i).mpr hi.le)

/-- The tokens that are read before the end of input are all but the last. -/
theorem sourceSymbols_eq_of_endOfInput {n : Nat}
    (hend : ((start source options).skip n).current.kind = .endOfInput)
    (hproper : ∀ symbol ∈ (start source options).ahead n, symbol.Proper) :
    sourceSymbols source = (start source options).ahead n ++ [.endOfInput] := by
  have hle := (skip_start_kind_eq_endOfInput_iff n).mp hend
  have hn : n + 1 = (sourceSymbols source).length :=
    le_antisymm (Nat.succ_le_of_lt (lt_length_of_proper hproper)) hle
  have hall := ahead_start source options hn.le
  rw [ahead_add, ahead_one, hn, List.take_length] at hall
  rw [← hall, ((ready_start source options).skip n).symbol_endOfInput hend]

theorem kind_of_items {parser parser' : Parser} (hready : parser.Ready) {items : List Item}
    (h : many item parser = .ok items parser') : parser'.current.kind = .endOfInput := by
  obtain ⟨last, hlast, hstop, -⟩ := Reads.progresses_item.exists_stop hready h
  obtain ⟨n, heq, hkind, hnil⟩ := (Reads.item hlast (Nat.zero_le _)).exists_of_ok hstop
  obtain rfl : n = 0 := length_of_ahead_eq hnil
  rwa [heq]

theorem derived_of_items {items : List Item} {parser' : Parser}
    (h : many item (start source options) = .ok items parser') :
    SpellsUnit options items (sourceSymbols source) := by
  obtain ⟨n, rfl, hunit⟩ := (reads_start source options).exists_of_ok h
  have hend := kind_of_items (ready_start source options) h
  obtain ⟨depth, hderives⟩ := hunit
  obtain ⟨front, hfront, hproper⟩ := hderives.exists_proper
  obtain ⟨rfl, -⟩ := List.append_inj' hfront rfl
  rw [sourceSymbols_eq_of_endOfInput hend hproper]
  exact ⟨depth, hderives⟩

end Parser

theorem exists_derived_of_parse {source : String} {options : Options} {unit : SourceUnit}
    (h : (parse source options).result = .ok unit) :
    ∃ depth, unit.Derived options depth (sourceSymbols source) := by
  obtain ⟨-, items, parser', hitems, rfl⟩ := exists_items_of_parse h
  obtain ⟨depth, hderives⟩ := Parser.derived_of_items hitems
  exact ⟨depth, rfl, hderives⟩

/-! ## Completeness -/

theorem Parser.ahead_start_length (source : String) (options : Options) :
    (start source options).ahead (sourceSymbols source).length = sourceSymbols source := by
  rw [ahead_start source options le_rfl, List.take_length]

theorem DerivesUnit.kind_ne_malformedNumber {anonymous : String} {depth : Nat}
    {prototypes : List Prototype} {definitions : List Definition} {word : List Symbol}
    (h : DerivesUnit anonymous depth prototypes definitions word) :
    ∀ symbol ∈ word, symbol.kind ≠ .malformedNumber := by
  obtain ⟨front, rfl, hproper⟩ := h.exists_proper
  rw [List.forall_mem_append]
  exact ⟨fun symbol hsymbol ↦ (hproper symbol hsymbol).2, by simp⟩

theorem Parser.start_kind_ne_malformedNumber {source : String} (options : Options)
    (h : ∀ symbol ∈ sourceSymbols source, symbol.kind ≠ .malformedNumber) :
    (start source options).current.kind ≠ .malformedNumber := by
  apply h (start source options).current.symbol
  have hpos : 0 < (sourceSymbols source).length := by
    rw [length_sourceSymbols source none]
    exact Lexer.length_tokens_pos _
  rw [← ahead_start_length source options]
  obtain ⟨n, hn⟩ := Nat.exists_eq_succ_of_ne_zero hpos.ne'
  simp [hn, ahead_succ]

theorem Parser.exists_of_stopsTooDeep {source : String} {options : Options}
    (h : StopsTooDeep (many item (start source options))) :
    ∃ position parser', many item (start source options) =
      .error (.failure ⟨.nestingTooDeep options.maxNestingDepth, position⟩) parser' := by
  obtain ⟨limit, position, parser', hdeep⟩ := h
  obtain ⟨n, cause, -, hhalt, -, hcause⟩ := (reads_start source options).exists_of_error hdeep
  obtain ⟨rfl, -⟩ := Diagnostic.mk.inj (Halt.failure.inj hhalt)
  rw [hdeep, (hcause rfl).1]
  exact ⟨position, parser', rfl⟩

/-- Nothing but the limit keeps the parser from accepting what the grammar derives. -/
theorem parse_of_derived {source : String} {options : Options} {unit : SourceUnit} {depth : Nat}
    (h : unit.Derived options depth (sourceSymbols source)) :
    if depth ≤ options.maxNestingDepth then (parse source options).result = .ok unit
    else ∃ position, (parse source options).result =
      .error (.failure ⟨.nestingTooDeep options.maxNestingDepth, position⟩) := by
  obtain ⟨hname, hderives⟩ := h
  have hproper := hderives.kind_ne_malformedNumber
  rw [parse_of_not_malformed (Parser.start_kind_ne_malformedNumber options hproper)]
  obtain ⟨items, front, hword, hprototypes, hdefinitions, hitems⟩ := hderives.recognized
  have hahead := Parser.ahead_start_length source options
  rw [← hahead] at hproper
  have hstarts : (Parser.start source options).ahead (sourceSymbols source).length <+:
      front ++ [.endOfInput] := ⟨[], by rw [List.append_nil, hahead, hword]⟩
  have hresult := hitems.recognizes (Parser.ready_start source options) _ hstarts hproper
  rw [Parser.start_room, hword, List.length_append, if_pos (by simp)] at hresult
  split
  · next hfits =>
    have hok := hresult.resolve_left fun hdeep ↦ hdeep.1 hfits
    rw [hok.2, unitOf, SourceUnit.ofItems, hprototypes, hdefinitions, ← hname]
  · next hfits =>
    have hdeep := hresult.resolve_right fun hok ↦ hfits hok.1
    obtain ⟨position, parser', heq⟩ := Parser.exists_of_stopsTooDeep hdeep.2
    rw [heq]
    exact ⟨position, rfl⟩

theorem SourceUnit.Derived.of_limit {unit : SourceUnit} {options : Options} {depth : Nat}
    {word : List Symbol} (h : unit.Derived options depth word) (limit : Nat) :
    unit.Derived { options with maxNestingDepth := limit } depth word := h

theorem depth_le_of_derived {source : String} {options : Options} {unit unit' : SourceUnit}
    {depth depth' : Nat} (h : unit.Derived options depth (sourceSymbols source))
    (h' : unit'.Derived options depth' (sourceSymbols source)) : depth' ≤ depth := by
  by_contra hlt
  have hok := parse_of_derived (h.of_limit depth)
  have hdeep := parse_of_derived (h'.of_limit depth)
  rw [if_pos le_rfl] at hok
  rw [if_neg hlt] at hdeep
  obtain ⟨position, hdeep⟩ := hdeep
  rw [hok] at hdeep
  cases hdeep

/-- What is accepted is not deeper than the limit. -/
theorem depth_le_of_parse {source : String} {options : Options} {unit unit' : SourceUnit}
    {depth : Nat} (h : (parse source options).result = .ok unit)
    (hderived : unit'.Derived options depth (sourceSymbols source)) :
    depth ≤ options.maxNestingDepth := by
  by_contra hlt
  have hdeep := parse_of_derived hderived
  rw [if_neg hlt] at hdeep
  obtain ⟨position, hdeep⟩ := hdeep
  rw [h] at hdeep
  cases hdeep

/-- A source has at most one derivation. -/
theorem derived_unique {source : String} {options : Options} {unit unit' : SourceUnit}
    {depth depth' : Nat} (h : unit.Derived options depth (sourceSymbols source))
    (h' : unit'.Derived options depth' (sourceSymbols source)) : unit = unit' ∧ depth = depth' := by
  obtain rfl := le_antisymm (depth_le_of_derived h' h) (depth_le_of_derived h h')
  have hok := parse_of_derived (h.of_limit depth)
  have hok' := parse_of_derived (h'.of_limit depth)
  rw [if_pos le_rfl] at hok hok'
  rw [hok] at hok'
  exact ⟨Except.ok.inj hok', rfl⟩

/-- The parser accepts a source with a unit if and only if the grammar derives the unit from the
tokens of the source within the limit.  A deeper derivation is refused for its depth, and there is
at most one derivation. -/
theorem parse_iff_derived (source : String) (options : Options) :
    (∀ unit : SourceUnit, (parse source options).result = .ok unit ↔
      ∃ depth ≤ options.maxNestingDepth, unit.Derived options depth (sourceSymbols source)) ∧
    (∀ (unit : SourceUnit) (depth : Nat), unit.Derived options depth (sourceSymbols source) →
      options.maxNestingDepth < depth → ∃ position, (parse source options).result =
        .error (.failure ⟨.nestingTooDeep options.maxNestingDepth, position⟩)) ∧
    ∀ (unit unit' : SourceUnit) (depth depth' : Nat),
      unit.Derived options depth (sourceSymbols source) →
      unit'.Derived options depth' (sourceSymbols source) → unit = unit' ∧ depth = depth' := by
  refine ⟨fun unit ↦ ⟨fun hok ↦ ?_, ?_⟩, fun unit depth h hlt ↦ ?_, fun _ _ _ _ ↦ derived_unique⟩
  · obtain ⟨depth, h⟩ := exists_derived_of_parse hok
    refine ⟨depth, Nat.le_of_not_lt fun hlt ↦ ?_, h⟩
    have hdeep := parse_of_derived h
    rw [if_neg (Nat.not_le_of_lt hlt)] at hdeep
    obtain ⟨position, hdeep⟩ := hdeep
    rw [hok] at hdeep
    cases hdeep
  · rintro ⟨depth, hle, h⟩
    have hok := parse_of_derived h
    rwa [if_pos hle] at hok
  · have hdeep := parse_of_derived h
    rwa [if_neg (Nat.not_le_of_lt hlt)] at hdeep

end ExprLang
