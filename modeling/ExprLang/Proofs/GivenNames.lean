import ExprLang.Proofs.RenamedSources

/-!
# Names Given by the Options

The options name the unit, the functions that are made from runs of statements, and the source in
positions.  No name among them has an influence on the parse, also if the source uses it itself.
Under the same limit a source has the same items or fails at the same token for the same cause.
-/

namespace ExprLang

/-- The item becomes a function. -/
def Item.isFunction : Item → Bool
  | .definition _ | .run _ => true
  | _ => false

/-- The functions that one item becomes under two sets of options: the one that is written, or a run
under the name that each of them gives. -/
inductive Item.Makes (options options' : Options) : Item → Definition → Definition → Prop
  | written (function : Definition) :
      Makes options options' (.definition function) function function
  | run (body : Block) : Makes options options' (.run body)
      ⟨⟨options.anonymousName, []⟩, body⟩ ⟨⟨options'.anonymousName, []⟩, body⟩

/-- Two units that are made of the same items and differ in the given names only. -/
structure SameApartFromNames (options options' : Options) (items : List Item)
    (unit unit' : SourceUnit) : Prop where
  name : unit.name = options.unitName
  name' : unit'.name = options'.unitName
  prototypes : unit'.prototypes = unit.prototypes
  length : unit.definitions.length = (items.filter Item.isFunction).length
  length' : unit'.definitions.length = (items.filter Item.isFunction).length
  /-- The functions at one index come from one item. -/
  definitions : ∀ (i : Nat) (item : Item), (items.filter Item.isFunction)[i]? = some item →
    ∃ function function', unit.definitions[i]? = some function ∧
      unit'.definitions[i]? = some function' ∧ item.Makes options options' function function'

variable {options options' : Options}

theorem Item.exists_makes (options options' : Options) {item : Item} (h : item.isFunction) :
    ∃ function function', item.Makes options options' function function' ∧
      item.definition? options = some function ∧ item.definition? options' = some function' := by
  cases item with
  | definition function => exact ⟨function, function, .written function, rfl, rfl⟩
  | run body => exact ⟨_, _, .run body, rfl, rfl⟩
  | separator => cases h
  | declaration prototype => cases h

theorem Item.isSome_definition? (options : Options) (item : Item) :
    (item.definition? options).isSome = item.isFunction := by
  cases item <;> rfl

namespace SourceUnit

theorem length_ofItems_definitions (options : Options) (items : List Item) :
    (ofItems options items).definitions.length = (items.filter Item.isFunction).length := by
  rw [ofItems, List.length_filterMap_eq_countP, List.countP_eq_length_filter]
  simp only [Item.isSome_definition?]

theorem getElem?_ofItems_definitions (options : Options) (items : List Item) (i : Nat) :
    (ofItems options items).definitions[i]? =
      (items.filter Item.isFunction)[i]?.bind (Item.definition? options) := by
  simp only [ofItems]
  induction items generalizing i with
  | nil => rfl
  | cons item items ih =>
    have hsome := item.isSome_definition? options
    cases hfunction : item.definition? options with
    | none =>
      rw [hfunction, Option.isSome_none] at hsome
      rw [List.filterMap_cons_none hfunction, List.filter_cons_of_neg (by simp [← hsome]), ih]
    | some function =>
      rw [hfunction, Option.isSome_some] at hsome
      rw [List.filterMap_cons_some hfunction, List.filter_cons_of_pos hsome.symm]
      cases i with
      | zero => exact hfunction.symm
      | succ i => exact ih i

theorem sameApartFromNames_ofItems (options options' : Options) (items : List Item) :
    SameApartFromNames options options' items (ofItems options items)
      (ofItems options' items) where
  name := rfl
  name' := rfl
  prototypes := rfl
  length := length_ofItems_definitions options items
  length' := length_ofItems_definitions options' items
  definitions i item hitem := by
    have hfunction : item.isFunction := (List.mem_filter.mp (List.mem_of_getElem? hitem)).2
    obtain ⟨function, function', hmakes, hmade, hmade'⟩ :=
      item.exists_makes options options' hfunction
    refine ⟨function, function', ?_, ?_, hmakes⟩
    · rw [getElem?_ofItems_definitions, hitem, Option.bind_some, hmade]
    · rw [getElem?_ofItems_definitions, hitem, Option.bind_some, hmade']

end SourceUnit

namespace Parser

theorem token_ofSource (source : String) (file file' : Option String) (n : Nat) :
    (Lexer.ofSource source file).token n = (Lexer.ofSource source file').token n := by
  have htokens : (Lexer.ofSource source file).tokens = (Lexer.ofSource source file').tokens :=
    (tokens_ofSource source file).trans (tokens_ofSource source file').symm
  simp only [Lexer.token_eq_getD, htokens]

theorem skip_start_current_eq (source : String) (options options' : Options) (n : Nat) :
    ((start source options').skip n).current = ((start source options).skip n).current := by
  rw [skip_start_current, skip_start_current]
  exact token_ofSource source _ _ n

theorem twins_start_of_options (source : String)
    (h : options'.maxNestingDepth = options.maxNestingDepth) :
    (start source options).Twins id (start source options') where
  ready := ready_start source options
  ready' := ready_start source options'
  symbol n := by rw [skip_start_current_eq source options options', Symbol.rename_id]
  room_le := h.ge

end Parser

/-- The parse fails for the given cause at the given offset. -/
def FailsFor (source : String) (options : Options) (cause : Cause) (offset : Nat) : Prop :=
  (parse source options).result =
    .error (.failure ⟨cause, ⟨offset, options.fileName.getD Lexer.defaultFile⟩⟩)

open ExprLang.Parser in
theorem failsFor_of_result {source : String} {cause : Cause} {n : Nat}
    (h : (parse source options).result =
      .error (.failure ⟨cause, ((start source options).skip n).position⟩)) :
    FailsFor source options cause ((start source options).skip n).current.start := by
  rw [FailsFor, h, skip_start_position, skip_start_current]
  rfl

open ExprLang.Parser in
/-- Whatever names two sets of options with the same limit give, either both parses read the same
items and tell of them alike, and the units differ in the given names only, or both fail for the
same cause at the same offset. -/
theorem parse_of_names (source : String) (options options' : Options)
    (h : options'.maxNestingDepth = options.maxNestingDepth) :
    (∃ items told unit unit', parse source options = ⟨items, told, .ok unit⟩ ∧
      parse source options' = ⟨items, told, .ok unit'⟩ ∧
        SameApartFromNames options options' items unit unit') ∨
    ∃ cause offset,
      FailsFor source options cause offset ∧ FailsFor source options' cause offset := by
  have htwins := twins_start_of_options source h
  have hcurrent := skip_start_current_eq source options options'
  by_cases hmalformed : (start source options).current.kind = .malformedNumber
  · have hfirst : (start source options').current = (start source options).current := hcurrent 0
    have hmalformed' := htwins.kind_eq.trans hmalformed
    have hfails := failsFor_of_result (n := 0) (parse_of_malformed hmalformed)
    have hfails' := failsFor_of_result (n := 0) (parse_of_malformed hmalformed')
    rw [skip_zero, hfirst] at hfails'
    exact .inr ⟨_, _, hfails, hfails'⟩
  · have hmalformed' : (start source options').current.kind ≠ .malformedNumber := by
      rwa [htwins.kind_eq]
    rcases htwins.items h.symm h with ⟨n, items, hitems, hitems'⟩ | ⟨n, cause, hitems, hitems'⟩
    · rw [Item.map_rename_id] at hitems'
      exact .inl ⟨items, _, _, _, parse_of_many hmalformed hitems,
        parse_of_many hmalformed' hitems',
        SourceUnit.sameApartFromNames_ofItems options options' items⟩
    · have hfails := failsFor_of_result (n := n)
        ((parse_of_not_malformed hmalformed).trans (congrArg (unitOf options) hitems))
      have hfails' := failsFor_of_result (n := n)
        ((parse_of_not_malformed hmalformed').trans (congrArg (unitOf options') hitems'))
      rw [hcurrent] at hfails'
      exact .inr ⟨_, _, hfails, hfails'⟩

theorem derived_function_and_run :
    SourceUnit.Derived .default (max (1 + 1) (max (1 + 1) 0))
      ⟨"main", [], [⟨⟨"x", []⟩, []⟩, ⟨⟨"__anon_expr", []⟩, [.expression (.var "x")]⟩]⟩
      (sourceSymbols "fn x() {} x;") := by
  have hsymbols : sourceSymbols "fn x() {} x;" = .keyword .definition ::
      ((⟨"x", []⟩ : Prototype).symbols ++
        ((.char '{' :: ([] ++ [.char '}'])) ++ ([.name "x", .char ';'] ++ [.endOfInput]))) := by
    decide
  have hrun : Derives 1 (.statements [.expression (.var "x")]) [.name "x", .char ';'] :=
    .statements (.expressionStatement (.expression (.tighter (.tighter (.tighter
      (.var Parser.Reads.isName_x)))))) .noStatement
  rw [hsymbols]
  refine ⟨rfl, .definition ⟨Parser.Reads.isName_x, by simp⟩ (.block .noStatement) ?_⟩
  exact .run (by simp) hrun .finish (by simp [endsRun_iff])

/-- The unit is named as a keyword, and the runs and the source as a function of the source. -/
theorem parse_of_clashing_names :
    let clashing : Options := ⟨some "x", "fn", "x", 128⟩
    clashing.maxNestingDepth = Options.default.maxNestingDepth ∧
      ∃ items told unit unit', parse "fn x() {} x;" .default = ⟨items, told, .ok unit⟩ ∧
        parse "fn x() {} x;" clashing = ⟨items, told, .ok unit'⟩ ∧
          SameApartFromNames .default clashing items unit unit' := by
  have haccepted := parse_of_derived derived_function_and_run
  rw [if_pos (by decide)] at haccepted
  refine ⟨rfl, ?_⟩
  rcases parse_of_names "fn x() {} x;" .default ⟨some "x", "fn", "x", 128⟩ rfl with
    h | ⟨cause, offset, hfails, -⟩
  · exact h
  · rw [FailsFor, haccepted] at hfails
    cases hfails

end ExprLang
