import ExprLang.Diagnostic
import ExprLang.Parser.Item
import ExprLang.Text
import ExprLang.Text.Place

/-!
# The Journal of a Parse

A parse is reported by events: its start, every complete item, and the unit or the diagnostic at its
end.  Each event has a level, and a journal holds the lines of the events at a level or above it.
The parse decides on the events, their levels and their texts.  How they are laid out in lines is up
to who listens; here it is a listener that writes plain text.
-/

namespace ExprLang

/-- How important an event is, the least important first. -/
inductive Level where
  | trace
  | debug
  | info
  | error
deriving DecidableEq, Repr

namespace Level

def rank : Level → Nat
  | trace => 0
  | debug => 1
  | info => 2
  | error => 3

/-- Levels stand right-aligned at the start of a line. -/
def label : Level → String
  | trace => "TRACE"
  | debug => "DEBUG"
  | info => " INFO"
  | error => "ERROR"

end Level

namespace Event

def level : Event → Level
  | started _ | finished .. => .debug
  | declaration _ | definition _ | run _ => .trace
  | failed _ => .error

/-- The text of an event about a source. -/
def text (source : String) : Event → String
  | started bytes => "parsing bytes=" ++ toString bytes
  | declaration name => "parsed extern name=" ++ Text.quoted name
  | definition name => "parsed definition name=" ++ Text.quoted name
  | run statements => "parsed top-level statements statements=" ++ toString statements
  | finished prototypes definitions =>
    "parsed translation unit prototypes=" ++ toString prototypes ++
      " functions=" ++ toString definitions
  | failed diagnostic =>
    diagnostic.render source ++ " kind=" ++ diagnostic.cause.stage.name ++
      " name=" ++ Text.quoted diagnostic.cause.name

/-- The parse of the items of a unit is a part of its own in the journal, to which the start and a
failure do not belong. -/
def isWithinUnit : Event → Bool
  | started _ | failed _ => false
  | _ => true

/-- How the part of the journal about the items of a unit is named. -/
def unitLabel (options : Options) : String :=
  "translation_unit\x7bunit=" ++ options.unitName ++ " file=" ++
    options.fileName.getD Lexer.defaultFile ++ "\x7d: "

/-- The entry of an event.  Its text is fit for a terminal whatever the source holds. -/
def entry (source : String) (options : Options) (event : Event) : String :=
  event.level.label ++ " " ++ (if event.isWithinUnit then unitLabel options else "") ++
    Text.forTerminal (event.text source)

/-- The lines of the entry of an event: one, or more if a name in it holds line feeds. -/
def lines (source : String) (options : Options) (event : Event) : List String :=
  (Text.lines (event.entry source options).toList).map fun line ↦
    String.ofList (Text.withoutEnd line)

end Event

namespace Parse

/-- The event at the end of a parse.  A defect leaves none. -/
def lastEvent? (parse : Parse) : Option Event :=
  match parse.result with
  | .ok unit => some (.finished unit.prototypes.length unit.definitions.length)
  | .error (.failure diagnostic) => some (.failed diagnostic)
  | .error (.defect _) => none

/-- The events of the parse of a source. -/
def events (parse : Parse) (source : String) : List Event :=
  .started source.utf8ByteSize :: (parse.told ++ parse.lastEvent?.toList)

end Parse

/-- The lines of the events at a level or above it. -/
def journal (level : Level) (source : String) (options : Options) (events : List Event) :
    List String :=
  (events.filter fun event ↦ level.rank ≤ event.level.rank).flatMap (Event.lines source options)

end ExprLang
