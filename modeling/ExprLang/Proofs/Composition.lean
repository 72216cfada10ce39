import ExprLang.Proofs.JoinedSources
import ExprLang.Proofs.RenamedSources

/-!
# Joined Sources Are Parsed One After the Other

A semicolon ends every item that the end of input ends, so the items of an accepted source are read
again in front of it.  Behind the semicolon the parser faces the symbols of the second source with
all levels free, and does there what it does at the start of that source.
-/

namespace ExprLang

namespace Parser

/-- Items that are recognized up to the end of input are read up to whatever ends a run. -/
theorem many_item_of_recognized {depth : Nat} {items : List Item} {front : List Symbol}
    (h : RecognizedItems depth items front) {parser : Parser} {symbol : Symbol}
    (hready : parser.Ready) (hfits : depth ≤ parser.room)
    (hahead : parser.ahead (front.length + 1) = front ++ [symbol])
    (hproper : ∀ other ∈ front ++ [symbol], other.kind ≠ .malformedNumber)
    (hends : endsRun symbol.kind) :
    many item parser = ((items ++ ·) <$> many item) (parser.skip front.length) := by
  induction h generalizing parser with
  | nil =>
    rw [map_apply, List.length_nil, skip_zero]
    cases many item parser <;> rfl
  | @cons depth depth' first items word front hitem hprecedes _ ih =>
    rw [max_le_iff] at hfits
    simp only [List.append_assoc, List.length_append, Nat.add_assoc] at hahead hproper
    have hstarts : parser.ahead (word.length + (front.length + 1)) <+:
        word ++ (front ++ [symbol]) := hahead ▸ List.prefix_rfl
    have hread := hitem parser _ hready (hprecedes.replace_end hends) _ hstarts (by rwa [hahead])
    rw [if_pos (by omega)] at hread
    have hstep := (hread.resolve_left fun hdeep ↦ hdeep.1 hfits.1).2
    rw [ahead_add] at hahead
    have htail := (List.append_inj hahead (length_ahead _ _)).2
    have hitems := ih (hready.skip word.length) (by rw [skip_room]; exact hfits.2) htail
      fun other hother ↦ hproper other (List.mem_append_right _ hother)
    rw [Reads.progresses_item.many_of_some hready hstep, map_apply, hitems, map_apply, map_apply,
      skip_skip, List.length_append]
    cases many item (parser.skip (word.length + front.length)) <;> rfl

/-- Behind a semicolon that belongs to nothing the next item is read. -/
theorem many_item_of_separator {parser : Parser} (hready : parser.Ready)
    (hkind : parser.current.kind = .char ';') :
    many item parser = if (parser.skip 1).current.kind = .malformedNumber then
        .error (Fault.malformed.halt (parser.skip 1)) (parser.skip 1)
      else (List.cons Item.separator <$> many item) (parser.skip 1) := by
  have hitem : item parser = (do discard advance; pure (some Item.separator)) parser := by
    rw [item, get_bind_apply, hkind]
    rfl
  rw [bind_apply, discard_apply, advance_apply] at hitem
  rw [skip_one]
  by_cases hmalformed : parser.shifted.current.kind = .malformedNumber
  · rw [if_pos hmalformed] at hitem ⊢
    exact Reads.progresses_item.many_of_error hready hitem
  · rw [if_neg hmalformed] at hitem ⊢
    exact Reads.progresses_item.many_of_some hready hitem

variable (first second : String) (options : Options)

/-- The parser at the first token of the second source. -/
def behind : Parser := (start (joined first second) options).skip (sourceSymbols first).length

theorem ready_behind : (behind first second options).Ready := (ready_start _ options).skip _

theorem skip_behind_current (n : Nat) : ((behind first second options).skip n).current =
    ((start second options).skip n).current.shift (first.utf8ByteSize + 3) := by
  rw [behind, skip_skip, skip_start_current, skip_start_current,
    length_sourceSymbols first options.fileName, token_joined]

theorem skip_behind_position (n : Nat) : ((behind first second options).skip n).position =
    ⟨first.utf8ByteSize + 3 + ((start second options).skip n).position.offset,
      ((start second options).skip n).position.file⟩ := by
  have hfile : ((behind first second options).skip n).lexer.file =
      ((start second options).skip n).lexer.file := by
    rw [behind, skip_skip, skip_lexer, skip_lexer, Lexer.after_file, Lexer.after_file]
    rfl
  rw [position, skip_behind_current, hfile]
  rfl

theorem twins_behind : (start second options).Twins id (behind first second options) where
  ready := ready_start second options
  ready' := ready_behind first second options
  symbol n := by rw [skip_behind_current, Token.shift_symbol, Symbol.rename_id]
  room_le := by simp [behind]

/-- The end of the first source turns into the semicolon. -/
theorem ahead_joined {front : List Symbol} (h : sourceSymbols first = front ++ [.endOfInput]) :
    (start (joined first second) options).ahead (front.length + 1) = front ++ [.char ';'] := by
  have hjoined : sourceSymbols (joined first second) =
      front ++ .char ';' :: sourceSymbols second := by
    rw [sourceSymbols_joined, h, List.dropLast_concat]
  rw [ahead_start _ _ (by simp [hjoined]), hjoined, List.take_length_add_append]
  rfl

theorem semicolon_joined {front : List Symbol}
    (h : sourceSymbols first = front ++ [.endOfInput]) :
    ((start (joined first second) options).skip front.length).current.kind = .char ';' := by
  have hahead := ahead_joined first second options h
  rw [ahead_add, ahead_one] at hahead
  have hsymbol := (List.append_inj hahead (length_ahead _ _)).2
  exact congrArg Symbol.kind (List.cons.inj hsymbol).1

variable {first options}

/-- The items of an accepted source are read again, and then the semicolon. -/
theorem exists_items_joined {unit : SourceUnit} (h : (parse first options).result = .ok unit) :
    ∃ items, unit = .ofItems options items ∧
      (start (joined first second) options).current.kind ≠ .malformedNumber ∧
      many item (start (joined first second) options) =
        if (start second options).current.kind = .malformedNumber then
          .error (Fault.malformed.halt (behind first second options)) (behind first second options)
        else ((items ++ .separator :: ·) <$> many item) (behind first second options) := by
  obtain ⟨depth, hderived⟩ := exists_derived_of_parse h
  have hfits := depth_le_of_parse h hderived
  obtain ⟨hname, hderives⟩ := hderived
  have hproper := hderives.kind_ne_malformedNumber
  obtain ⟨items, front, hword, hprototypes, hdefinitions, hitems⟩ := hderives.recognized
  have hahead := ahead_joined first second options hword
  have hproper' : ∀ symbol ∈ front ++ [Symbol.char ';'], symbol.kind ≠ .malformedNumber := by
    rw [hword, List.forall_mem_append] at hproper
    exact List.forall_mem_append.mpr ⟨hproper.1, by simp⟩
  have hready := ready_start (joined first second) options
  have hmany := many_item_of_recognized hitems hready hfits hahead hproper' rfl
  refine ⟨items, ?_, ?_, ?_⟩
  · rw [SourceUnit.ofItems, hprototypes, hdefinitions, ← hname]
  · apply hproper' (start (joined first second) options).current.symbol
    rw [← hahead, ahead_succ]
    exact List.mem_cons_self
  · have hkind := semicolon_joined first second options hword
    have hbehind : (start (joined first second) options).skip (front.length + 1) =
        behind first second options := by
      rw [behind, hword, List.length_append, List.length_singleton]
    have hfirst := congrArg Token.kind (skip_behind_current first second options 0)
    rw [skip_zero, skip_zero, Token.shift_kind] at hfirst
    rw [hmany, map_apply, many_item_of_separator (hready.skip _) hkind, skip_skip, hbehind, hfirst]
    by_cases hmalformed : (start second options).current.kind = .malformedNumber
    · rw [if_pos hmalformed, if_pos hmalformed]
    · rw [if_neg hmalformed, if_neg hmalformed, map_apply, map_apply]
      cases many item (behind first second options) <;> rfl

end Parser

open ExprLang.Parser in
/-- Behind an accepted source the second one is accepted or refused as it is alone. -/
theorem parse_joined_cases {first : String} (second : String) {options : Options}
    {unit : SourceUnit} (h : (parse first options).result = .ok unit) :
    (∃ items items', unit = .ofItems options items ∧
      (parse second options).result = .ok (.ofItems options items') ∧
      (parse (joined first second) options).result =
        .ok (.ofItems options (items ++ .separator :: items'))) ∨
    ∃ cause position, (parse second options).result = .error (.failure ⟨cause, position⟩) ∧
      (parse (joined first second) options).result = .error (.failure
        ⟨cause, ⟨first.utf8ByteSize + 3 + position.offset, position.file⟩⟩) := by
  obtain ⟨items, hunit, hstart, hmany⟩ := exists_items_joined second h
  have hjoined := parse_of_not_malformed hstart
  rw [hmany] at hjoined
  by_cases hmalformed : (start second options).current.kind = .malformedNumber
  · rw [if_pos hmalformed] at hjoined
    refine .inr ⟨_, _, parse_of_malformed hmalformed, ?_⟩
    have hcurrent := skip_behind_current first second options 0
    have hposition := skip_behind_position first second options 0
    rw [skip_zero] at hcurrent hposition
    rw [hjoined, unitOf, Fault.halt, hcurrent, hposition]
    rfl
  · rw [if_neg hmalformed, map_apply] at hjoined
    rw [hjoined, parse_of_not_malformed hmalformed]
    rcases (twins_behind first second options).items (by simp [behind]) (by simp [behind]) with
      ⟨n, items', hitems, hitems'⟩ | ⟨n, cause, hitems, hitems'⟩
    · rw [hitems, hitems', Item.map_rename_id]
      exact .inl ⟨items, items', hunit, rfl, rfl⟩
    · rw [hitems, hitems']
      refine .inr ⟨_, _, rfl, ?_⟩
      have hsymbol := Token.shift_symbol (first.utf8ByteSize + 3)
        ((start second options).skip n).current
      rw [unitOf, skip_behind_current, skip_behind_position,
        cause.quoting_eq_of_symbol_eq hsymbol]

/-- Behind an accepted source and a semicolon on a line of its own, a source makes what it makes
alone: its declarations and definitions follow those of the first source, and a failure has the same
cause at the same place of the second source. -/
theorem parse_joined (first second : String) (options : Options) (unit : SourceUnit)
    (h : (parse first options).result = .ok unit) :
    (∀ unit' : SourceUnit, (parse second options).result = .ok unit' →
      (parse (joined first second) options).result = .ok
        ⟨unit.name, unit.prototypes ++ unit'.prototypes, unit.definitions ++ unit'.definitions⟩) ∧
    ∀ (cause : Cause) (position : Position),
      (parse second options).result = .error (.failure ⟨cause, position⟩) →
        (parse (joined first second) options).result = .error (.failure
          ⟨cause, ⟨first.utf8ByteSize + 3 + position.offset, position.file⟩⟩) := by
  rcases parse_joined_cases second h with
    ⟨items, items', rfl, hsecond, hjoined⟩ | ⟨cause, position, hsecond, hjoined⟩
  · rw [hsecond, hjoined]
    constructor
    · rintro _ ⟨⟩
      simp [SourceUnit.ofItems, List.filterMap_cons, Item.prototype?, Item.definition?]
    · rintro _ _ ⟨⟩
  · rw [hsecond, hjoined]
    constructor
    · rintro _ ⟨⟩
    · rintro _ _ ⟨⟩
      rfl

theorem parse_joined_after_comment :
    let unit : SourceUnit := ⟨"main", [], [⟨⟨"__anon_expr", []⟩, [.expression (.var "x")]⟩]⟩
    (parse "x; # all" .default).result = .ok unit ∧
      (parse (joined "x; # all" "x; # all") .default).result =
        .ok ⟨unit.name, [] ++ [], unit.definitions ++ unit.definitions⟩ ∧
      (parse (joined "x; # all" ")") .default).result = .error (.failure
        ⟨.unexpectedToken "statement or declaration" "')'", ⟨11, "shell"⟩⟩) := by
  intro unit
  have hsymbols : sourceSymbols "x; # all" = [.name "x", .char ';'] ++ [.endOfInput] := by decide
  have hbody : Derives 1 (.statements [.expression (.var "x")]) [.name "x", .char ';'] :=
    .statements (.expressionStatement (.expression (.tighter (.tighter (.tighter
      (.var Parser.Reads.isName_x)))))) .noStatement
  have hderived : unit.Derived .default 2 (sourceSymbols "x; # all") := by
    rw [hsymbols]
    exact ⟨rfl, .run (by simp) hbody .finish (by simp [endsRun_iff])⟩
  have haccepted := parse_of_derived hderived
  rw [if_pos (by decide)] at haccepted
  have hrefused : (parse ")" .default).result = .error (.failure
      ⟨.unexpectedToken "statement or declaration" "')'", ⟨0, "shell"⟩⟩) := rfl
  exact ⟨haccepted, (parse_joined _ _ _ _ haccepted).1 _ haccepted,
    (parse_joined _ _ _ _ haccepted).2 _ _ hrefused⟩

end ExprLang
