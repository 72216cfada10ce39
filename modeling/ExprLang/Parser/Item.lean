import ExprLang.Parser.Statement

/-!
# Reading Source Units

A source is a sequence of items: declarations, definitions, runs of statements outside every
definition, and single semicolons.  A run becomes a function of its own without parameters.  Every
complete item but a semicolon is told by an event.  The items that were complete before a failure
and their events are kept beside the failure.
-/

namespace ExprLang

inductive Item where
  /-- A semicolon that belongs to nothing. -/
  | separator
  | declaration (prototype : Prototype)
  | definition (definition : Definition)
  | run (body : Block)

namespace Item

def prototype? : Item → Option Prototype
  | .declaration prototype => some prototype
  | _ => none

/-- The function that an item makes; a run is named as the options tell. -/
def definition? (options : Options) : Item → Option Definition
  | .definition function => some function
  | .run body => some ⟨⟨options.anonymousName, []⟩, body⟩
  | _ => none

end Item

/-- What a parse tells along its way. -/
inductive Event where
  | started (bytes : Nat)
  | declaration (name : String)
  | definition (name : String)
  | run (statements : Nat)
  | finished (prototypes definitions : Nat)
  | failed (diagnostic : Diagnostic)
deriving DecidableEq, Repr

/-- The event of a complete item. -/
def Event.ofItem? : Item → Option Event
  | .separator => none
  | .declaration prototype => some (declaration prototype.name)
  | .definition function => some (definition function.prototype.name)
  | .run body => some (run body.length)

/-- The unit that the items make. -/
def SourceUnit.ofItems (options : Options) (items : List Item) : SourceUnit where
  name := options.unitName
  prototypes := items.filterMap Item.prototype?
  definitions := items.filterMap (Item.definition? options)

namespace Parser

/-- The head of a function. -/
def prototype : Step Prototype := do
  let name ← expectIdentifier "function name"
  discard (expectChar '(')
  let parameters ←
    if (← get).current.isChar ')' then pure []
    else do
      let first ← expectIdentifier "identifier"
      let others ← afterCommas (expectIdentifier "identifier")
      pure (first :: others)
  discard (expectAs (.char ')') "')' or ','")
  pure ⟨name, parameters⟩

def declaration : Step Prototype := do
  discard (expect (.keyword .declaration))
  let prototype ← prototype
  discard (expectChar ';')
  pure prototype

def definition : Step Definition := do
  discard (expect (.keyword .definition))
  let prototype ← prototype
  let body ← block
  pure ⟨prototype, body⟩

/-- A run of at least one statement. -/
def run : Step Block := do
  let body ← statements
  if body.isEmpty then unexpected "statement or declaration"
  pure body

/-- A run as the function that it becomes. -/
def runDefinition : Step Definition := do
  let body ← run
  pure ⟨⟨(← get).options.anonymousName, []⟩, body⟩

/-- The next item, unless the input has ended. -/
def item : Step (Option Item) := do
  match (← get).current.kind with
  | .endOfInput => pure none
  | .char ';' =>
    discard advance
    pure (some .separator)
  | .keyword .declaration => return some (.declaration (← declaration))
  | .keyword .definition => return some (.definition (← definition))
  | _ => return some (.run (← run))

/-- What the reading of items has come to. -/
structure Reading where
  /-- The complete items. -/
  items : List Item
  /-- What was told on the way. -/
  told : List Event
  ending : EStateM.Result Halt Parser Unit

/-- Reads items up to the end of input or to a failure and tells of each of them; at most as many
items as the number tells. -/
def itemsUpTo : Nat → Parser → Reading
  | 0, parser => ⟨[], [], .ok () parser⟩
  | n + 1, parser =>
    match item parser with
    | .error halt parser => ⟨[], [], .error halt parser⟩
    | .ok none parser => ⟨[], [], .ok () parser⟩
    | .ok (some item) parser =>
      let event := Event.ofItem? item
      let reading := itemsUpTo n parser
      ⟨item :: reading.items, event.toList ++ reading.told, reading.ending⟩

/-- Reads all items.  Every item takes a token. -/
def items (parser : Parser) : Reading :=
  itemsUpTo (parser.lexer.rest.length + 2) parser

/-- Reads up to the end of input. -/
def unit : Step SourceUnit := fun parser ↦
  let reading := items parser
  match reading.ending with
  | .ok () parser => .ok (.ofItems parser.options reading.items) parser
  | .error halt parser => .error halt parser

end Parser

/-- How the parse of a source went. -/
structure Parse where
  /-- The items that were complete before the end of input or the failure. -/
  items : List Item
  /-- What was told of the items. -/
  told : List Event
  result : Except Halt SourceUnit

/-- A parse whose items have been read. -/
def Parse.ofReading (options : Options) (reading : Parser.Reading) : Parse where
  items := reading.items
  told := reading.told
  result :=
    match reading.ending with
    | .ok () _ => .ok (.ofItems options reading.items)
    | .error halt _ => .error halt

/-- Parses a whole source. -/
def parse (source : String) (options : Options) : Parse :=
  match Parser.ofSource source options with
  | .error diagnostic => ⟨[], [], .error (.failure diagnostic)⟩
  | .ok parser => .ofReading options parser.items

end ExprLang
