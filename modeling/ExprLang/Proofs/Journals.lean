import ExprLang.Journal
import ExprLang.Proofs.Diagnoses
import ExprLang.Proofs.WellFormed

/-!
# What the Journal Tells

The items of a parse stand one after the other at the start of the source, up to the end of input or
to the item that fails.  The journal tells of each of them but the separators, and of the result.
-/

namespace ExprLang

theorem terminal_of_spellsItems {items : List Item} {words : List (List Symbol)}
    (h : List.Forall₂ SpellsItem items words) : ∀ symbol ∈ words.flatten, symbol.Terminal := by
  induction h with
  | nil => exact List.forall_mem_nil _
  | cons hitem _ ih =>
    rw [List.flatten_cons, List.forall_mem_append]
    exact ⟨hitem.terminal, ih⟩

namespace Parser

/-- How the reading of items ends at a parser: with the end of input, or with an item that halts. -/
inductive EndsAt (parser : Parser) : EStateM.Result Halt Parser Unit → Prop
  | finished : parser.current.kind = .endOfInput → EndsAt parser (.ok () parser)
  | halted {halt : Halt} {parser' : Parser} : item parser = .error halt parser' →
      EndsAt parser (.error halt parser')

/-- Items are read one after the other, each behind the symbols of those before. -/
theorem exists_spellsItems {parser : Parser} (hready : parser.Ready) {n : Nat}
    (hsize : parser.size < n) :
    ∃ words, List.Forall₂ SpellsItem (itemsUpTo n parser).items words ∧
      ∃ m, words.flatten = parser.ahead m ∧ (parser.skip m).EndsAt (itemsUpTo n parser).ending := by
  induction n generalizing parser with
  | zero => omega
  | succ n ih =>
    rw [itemsUpTo]
    cases hitem : item parser with
    | error halt parser' => exact ⟨[], .nil, 0, rfl, .halted hitem⟩
    | ok result parser' =>
      obtain ⟨k, rfl, hword⟩ := (Reads.item hready (Nat.zero_le _)).exists_of_ok hitem
      cases result with
      | none =>
        obtain rfl : k = 0 := length_of_ahead_eq hword.2
        exact ⟨[], .nil, 0, rfl, .finished hword.1⟩
      | some item =>
        obtain ⟨hready', hlt⟩ := Reads.progresses_item parser item _ hready hitem
        obtain ⟨words, hwords, m, hflatten, hends⟩ := ih hready' (by omega)
        rw [skip_skip] at hends
        refine ⟨parser.ahead k :: words, .cons hword hwords, k + m, ?_, hends⟩
        rw [List.flatten_cons, hflatten, ahead_add]

end Parser

/-- The words of the items of a parse.  They start the source, and what follows them is the end of
input or the item at which the parse has failed. -/
structure Parse.Follows (run : Parse) (source : String) (options : Options)
    (words : List (List Symbol)) : Prop where
  spells : List.Forall₂ SpellsItem run.items words
  starts : words.flatten <+: sourceSymbols source
  finished : ∀ unit, run.result = .ok unit → sourceSymbols source = words.flatten ++ [.endOfInput]
  halted : ∀ halt, run.result = .error halt →
    (∃ diagnostic, Parser.ofSource source options = .error diagnostic ∧ words = []) ∨
      ∃ parser', Parser.item ((Parser.start source options).skip words.flatten.length) =
        .error halt parser'

open ExprLang.Parser in
theorem follows_ofReading {source : String} {options : Options} {reading : Reading}
    {words : List (List Symbol)} {n : Nat} (hwords : List.Forall₂ SpellsItem reading.items words)
    (hflatten : words.flatten = (start source options).ahead n)
    (hends : ((start source options).skip n).EndsAt reading.ending) :
    (Parse.ofReading options reading).Follows source options words := by
  obtain ⟨items, told, ending⟩ := reading
  have hterminal := terminal_of_spellsItems hwords
  rw [hflatten] at hterminal
  have hproper : ∀ symbol ∈ (start source options).ahead n, symbol.Proper :=
    fun symbol hsymbol ↦ (hterminal symbol hsymbol).proper
  have hstarts : words.flatten <+: sourceSymbols source := by
    rw [hflatten, ahead_start source options (lt_length_of_proper hproper).le]
    exact List.take_prefix n _
  cases hends with
  | finished hkind =>
    refine ⟨hwords, hstarts, fun unit _ ↦ ?_, fun halt hresult ↦ (nomatch hresult)⟩
    rw [sourceSymbols_eq_of_endOfInput hkind hproper, hflatten]
  | halted hitem =>
    refine ⟨hwords, hstarts, fun unit hresult ↦ (nomatch hresult), fun halt hresult ↦ .inr ?_⟩
    obtain rfl := Except.error.inj hresult
    rw [hflatten, length_ahead]
    exact ⟨_, hitem⟩

open ExprLang.Parser in
theorem exists_follows (source : String) (options : Options) :
    ∃ words, (parse source options).Follows source options words := by
  have hparser := ofSource_eq source options
  split at hparser
  · refine ⟨[], ?_, List.nil_prefix, fun unit hresult ↦ ?_, fun _ _ ↦ .inl ⟨_, hparser, rfl⟩⟩
    · rw [parse, hparser]
      exact .nil
    · rw [parse, hparser] at hresult
      cases hresult
  · obtain ⟨words, hwords, n, hflatten, hends⟩ :=
      exists_spellsItems (ready_start source options) (start source options).size_lt
    rw [parse, hparser]
    exact ⟨words, follows_ofReading hwords hflatten hends⟩

namespace Event

/-- The name in the event of a declaration. -/
def declared? : Event → Option String
  | declaration name => some name
  | _ => none

/-- What the event of a function tells about it. -/
inductive Reports (options : Options) : Event → Definition → Prop
  | definition (function : Definition) :
      Reports options (definition function.prototype.name) function
  | run (body : Block) : Reports options (run body.length) ⟨⟨options.anonymousName, []⟩, body⟩

variable (options : Options) (items : List Item)

/-- The lines of an event are those of its entry. -/
theorem intercalate_lines {source : String} {event : Event}
    (h : '\r' ∉ (event.entry source options).toList) :
    "\n".intercalate (event.lines source options) = event.entry source options := by
  rw [← String.toList_inj, String.toList_intercalate, lines, List.map_map]
  have hcomp : String.toList ∘ (fun line ↦ String.ofList (Text.withoutEnd line)) =
      Text.withoutEnd := funext fun line ↦ String.toList_ofList
  rw [hcomp]
  exact Text.intercalate_lines h

theorem level_of_mem {items : List Item} {event : Event} (h : event ∈ items.filterMap ofItem?) :
    event.level = .trace := by
  obtain ⟨item, -, hitem⟩ := List.mem_filterMap.mp h
  cases item <;> cases hitem <;> rfl

theorem filterMap_declared? : (items.filterMap ofItem?).filterMap declared? =
    (items.filterMap Item.prototype?).map Prototype.name := by
  rw [List.filterMap_filterMap, List.map_filterMap]
  congr 1
  funext item
  cases item <;> rfl

theorem reports_filter : List.Forall₂ (Reports options)
    ((items.filterMap ofItem?).filter fun event ↦ event.declared?.isNone)
    (items.filterMap (Item.definition? options)) := by
  induction items with
  | nil => exact .nil
  | cons item items ih =>
    cases item with
    | separator => exact ih
    | declaration prototype => exact ih
    | definition function => exact .cons (.definition function) ih
    | run body => exact .cons (.run body) ih

/-- Only the first and the last event of a parse are above the lowest level. -/
theorem filter_events (p : Event → Bool)
    (hp : ∀ event : Event, event.level = .trace → p event = false) (first last : Event) :
    (first :: (items.filterMap ofItem? ++ [last])).filter p = [first, last].filter p := by
  have hitems : (items.filterMap ofItem?).filter p = [] := by
    rw [List.filter_eq_nil_iff]
    exact fun event hevent ↦ by simp [hp event (level_of_mem hevent)]
  simp only [List.filter_cons, List.filter_append, hitems, List.nil_append]

theorem filter_trace {first last : Event} (hfirst : first.level ≠ .trace)
    (hlast : last.level ≠ .trace) : (first :: (items.filterMap ofItem? ++ [last])).filter
      (fun event ↦ event.level = .trace) = items.filterMap ofItem? := by
  have hitems : (items.filterMap ofItem?).filter (fun event ↦ event.level = .trace) =
      items.filterMap ofItem? := by
    rw [List.filter_eq_self]
    exact fun event hevent ↦ decide_eq_true (level_of_mem hevent)
  simp [List.filter_append, hitems, hfirst, hlast]

theorem finished_notMem_filterMap (prototypes definitions : Nat) :
    finished prototypes definitions ∉ items.filterMap ofItem? := fun h ↦ nomatch level_of_mem h

end Event

namespace Parse

variable {source : String} {options : Options}

/-- A parse tells of its items in their order. -/
theorem told_eq (source : String) (options : Options) :
    (parse source options).told = (parse source options).items.filterMap Event.ofItem? := by
  rw [parse]
  cases Parser.ofSource source options with
  | error diagnostic => rfl
  | ok parser => exact Parser.told_itemsUpTo _ parser

theorem events_of_ok {unit : SourceUnit} (h : (parse source options).result = .ok unit) :
    (parse source options).events source = .started source.utf8ByteSize ::
      ((parse source options).items.filterMap Event.ofItem? ++
        [.finished unit.prototypes.length unit.definitions.length]) := by
  rw [events, lastEvent?, h, told_eq]
  rfl

theorem events_of_failure {diagnostic : Diagnostic}
    (h : (parse source options).result = .error (.failure diagnostic)) :
    (parse source options).events source = .started source.utf8ByteSize ::
      ((parse source options).items.filterMap Event.ofItem? ++ [.failed diagnostic]) := by
  rw [events, lastEvent?, h, told_eq]
  rfl

end Parse

/-- The journal tells exactly what a parse has done.  It starts with the size of the source and goes
on with an event for every complete item but the separators, in the order of the source.  It ends
with the number of prototypes and functions, or with the one diagnostic.  Every event that is told
at a level is there with all the lines of its entry. -/
theorem journal_tells (source : String) (options : Options) :
    let run := parse source options
    let events := run.events source
    let told := run.items.filterMap Event.ofItem?
    (∃ words, run.Follows source options words) ∧
      events.filter (fun event ↦ event.level = .trace) = told ∧
      ((∃ unit, run.result = .ok unit ∧
          events = .started source.utf8ByteSize ::
            (told ++ [.finished unit.prototypes.length unit.definitions.length]) ∧
          events.filter (fun event ↦ event.level = .error) = [] ∧
          told.filterMap Event.declared? = unit.prototypes.map Prototype.name ∧
          List.Forall₂ (Event.Reports options) (told.filter fun event ↦ event.declared?.isNone)
            unit.definitions) ∨
        ∃ diagnostic, run.result = .error (.failure diagnostic) ∧
          events = .started source.utf8ByteSize :: (told ++ [.failed diagnostic]) ∧
          events.filter (fun event ↦ event.level = .error) = [.failed diagnostic] ∧
          (Event.failed diagnostic).text source = diagnostic.render source ++
            " kind=" ++ diagnostic.cause.stage.name ++
            " name=" ++ Text.quoted diagnostic.cause.name ∧
          ∀ prototypes definitions, .finished prototypes definitions ∉ events) ∧
      journal .trace source options events = events.flatMap (Event.lines source options) ∧
      (∀ level, journal level source options events =
        (events.filter fun event ↦ level.rank ≤ event.level.rank).flatMap
          (Event.lines source options)) ∧
      ∀ event : Event, '\r' ∉ (event.entry source options).toList →
        "\n".intercalate (event.lines source options) = event.entry source options := by
  intro run events told
  have herror (event : Event) (h : event.level = .trace) :
      decide (event.level = .error) = false := by
    rw [h]
    rfl
  have hall : events.filter (fun event ↦ Level.trace.rank ≤ event.level.rank) = events :=
    List.filter_eq_self.mpr fun event _ ↦ decide_eq_true (Nat.zero_le _)
  have hjournal : journal .trace source options events =
      events.flatMap (Event.lines source options) := by rw [journal, hall]
  cases hresult : run.result with
  | ok unit =>
    have hevents : events = _ := Parse.events_of_ok hresult
    obtain rfl := parse_eq_ofItems hresult
    refine ⟨exists_follows source options, ?_, .inl ⟨_, rfl, hevents, ?_,
      Event.filterMap_declared? _, Event.reports_filter options _⟩, hjournal, fun level ↦ rfl,
      fun event ↦ Event.intercalate_lines options⟩
    · rw [hevents]
      exact Event.filter_trace _ (by simp [Event.level]) (by simp [Event.level])
    · rw [hevents, Event.filter_events _ _ herror]
      rfl
  | error halt =>
    obtain ⟨n, cause, rfl, -⟩ := Parser.exists_failure hresult
    have hevents : events = _ := Parse.events_of_failure hresult
    refine ⟨exists_follows source options, ?_, .inr ⟨_, rfl, hevents, ?_, rfl, ?_⟩, hjournal,
      fun level ↦ rfl, fun event ↦ Event.intercalate_lines options⟩
    · rw [hevents]
      exact Event.filter_trace _ (by simp [Event.level]) (by simp [Event.level])
    · rw [hevents, Event.filter_events _ _ herror]
      rfl
    · intro prototypes definitions
      rw [hevents, List.mem_cons, List.mem_append, List.mem_singleton]
      rintro (h | h | h)
      · cases h
      · exact Event.finished_notMem_filterMap _ prototypes definitions h
      · cases h

end ExprLang
