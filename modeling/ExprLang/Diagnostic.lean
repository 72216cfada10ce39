import ExprLang.Text.Place

/-!
# Diagnostics

A diagnostic is the cause of a failure and the position where it was met.  It is shown either as one
line, `file:line:column: message`, or as the source line with a caret under the place.
-/

namespace ExprLang

/-- A byte offset into the source of the given name.  Offsets are not bounded here: sources are
taken to be shorter than 2 ^ 32 bytes, so that every offset in them fits into 32 bits. -/
structure Position where
  offset : Nat
  file : String
deriving DecidableEq, Repr

/-- The position of what lies in no source. -/
def Position.nowhere : Position := ⟨0, "<null>"⟩

/-- What went wrong.  Tokens appear as messages speak of them. -/
inductive Cause where
  | malformedNumber (token : String)
  | unexpectedToken (expected found : String)
  | unknownExpression (token : String)
  | expectedExpression (after : String)
  | nestingTooDeep (limit : Nat)
  | emptyCompound (context : String)
deriving DecidableEq, Repr

/-- The stage to which a failure belongs.  The last one concerns users of a finished tree. -/
inductive Stage where
  | lexical
  | grammatical
  | structural
deriving DecidableEq, Repr

def Stage.name : Stage → String
  | lexical => "Lexical"
  | grammatical => "Syntax"
  | structural => "Structural"

namespace Cause

def stage : Cause → Stage
  | malformedNumber _ => .lexical
  | unexpectedToken .. | unknownExpression _ | expectedExpression _ | nestingTooDeep _ =>
    .grammatical
  | emptyCompound _ => .structural

def name : Cause → String
  | malformedNumber _ => "MalformedNumber"
  | unexpectedToken .. => "UnexpectedToken"
  | unknownExpression _ => "UnknownExpression"
  | expectedExpression _ => "ExpectedExpression"
  | nestingTooDeep _ => "NestingTooDeep"
  | emptyCompound _ => "EmptyCompoundStatement"

def message : Cause → String
  | malformedNumber token => "malformed number: " ++ Text.quoted token
  | unexpectedToken expected found => "expected " ++ expected ++ ", found " ++ found
  | unknownExpression token => "unknown expression format: " ++ token
  | expectedExpression after => "expected expression after " ++ after
  | nestingTooDeep limit => "nesting exceeds the limit of " ++ toString limit ++ " levels"
  | emptyCompound context => context ++ " has an empty body"

/-- Advice on how to mend the source. -/
def tip : Cause → Option String
  | malformedNumber token =>
    some ("Invalid number: `" ++ token ++ "`, a number may contain at most one `.`")
  | unexpectedToken expected found => some ("Expected " ++ expected ++ ", found " ++ found)
  | unknownExpression _ => some "Expressions start with a number, an identifier or `(`"
  | expectedExpression after => some ("Missing expression after " ++ after)
  | nestingTooDeep limit =>
    some ("Nesting is limited to " ++ toString limit ++ " levels, split the expression up")
  | emptyCompound _ => none

/-- The name of a cause, with its tip in parentheses. -/
def headline (cause : Cause) : String :=
  match cause.tip with
  | none => cause.name
  | some tip => cause.name ++ " (" ++ tip ++ ")"

end Cause

structure Diagnostic where
  cause : Cause
  position : Position
deriving DecidableEq, Repr

namespace Diagnostic

/-- The place of a diagnostic in its source. -/
def place (diagnostic : Diagnostic) (source : String) : Text.Place :=
  Text.place source.toList diagnostic.position.offset

/-- The diagnostic on one line.  Columns are counted from one. -/
def render (diagnostic : Diagnostic) (source : String) : String :=
  let place := diagnostic.place source
  diagnostic.position.file ++ ":" ++ toString place.line ++ ":" ++ toString (place.column + 1) ++
    ": " ++ diagnostic.cause.message

/-- The characters that indent a line. -/
def isIndent (c : Char) : Bool := c = ' ' || c = '\t'

/-- The lines of the view of a source line with a caret.  The indentation of the line is left out,
and a column inside it counts as its end. -/
def viewLines (diagnostic : Diagnostic) (source : String) : List String :=
  let place := diagnostic.place source
  let number := toString place.line
  let bar := Text.alignRight ' ' (number.length + 2) "|"
  let indent := place.text.takeWhile isIndent
  let text := String.ofList (Text.trimEnd (place.text.dropWhile isIndent))
  let caret := Text.alignRight '-' (place.column - Text.byteSize indent + 1) "^"
  ["Error: " ++ diagnostic.cause.headline, "-> " ++ diagnostic.position.file, bar,
    number ++ " | " ++ text, bar ++ " " ++ caret]

/-- The view of the source line with a caret under the place of the diagnostic. -/
def view (diagnostic : Diagnostic) (source : String) : String :=
  "\n".intercalate (diagnostic.viewLines source)

end Diagnostic

end ExprLang
