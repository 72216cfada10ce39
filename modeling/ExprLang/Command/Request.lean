import ExprLang.Options

/-!
# Requests on the Command Line

The arguments are read from left to right, and the first that settles the outcome ends the reading.
An option takes its value after `=` or from the next argument, which must not look like an option;
after `--` every argument is a file.  Nothing may be given twice.
-/

namespace ExprLang.Command

/-- The options that take a value. -/
inductive Setting where
  | unitName
  | anonymousName
  | maxDepth
deriving DecidableEq, Repr

namespace Setting

def flag : Setting → String
  | unitName => "--unit-name"
  | anonymousName => "--anon-name"
  | maxDepth => "--max-depth"

def all : List Setting := [unitName, anonymousName, maxDepth]

def ofFlag? (flag : String) : Option Setting := all.find? fun setting ↦ setting.flag = flag

end Setting

/-- What the arguments ask for so far. -/
structure Request where
  file : Option String
  unitName : Option String
  anonymousName : Option String
  maxDepth : Option Nat
  /-- The tokens are listed instead of the tree. -/
  tokens : Bool
deriving DecidableEq, Repr

/-- The outcomes that need no file. -/
inductive Settled where
  | rejected
  | version
  | help
deriving DecidableEq, Repr

/-- A number of levels: decimal digits, which a plus sign may precede, of a value below 2⁶⁴. -/
def depth? (text : String) : Option Nat :=
  let digits := match text.toList with
    | '+' :: digits => digits
    | digits => digits
  let value := Nat.ofDigitChars 10 digits 0
  if !digits.isEmpty && digits.all Char.isDigit && value < UInt64.size then some value else none

namespace Request

def empty : Request := ⟨none, none, none, none, false⟩

/-- Gives a setting its value. -/
def set (request : Request) (setting : Setting) (value : String) : Except Settled Request :=
  match setting with
  | .unitName =>
    if request.unitName.isSome then .error .rejected
    else .ok { request with unitName := some value }
  | .anonymousName =>
    if request.anonymousName.isSome then .error .rejected
    else .ok { request with anonymousName := some value }
  | .maxDepth =>
    match depth? value with
    | some depth =>
      if request.maxDepth.isSome then .error .rejected
      else .ok { request with maxDepth := some depth }
    | none => .error .rejected

/-- A file has a name, and there is one file at most. -/
def setFile (request : Request) (path : String) : Except Settled Request :=
  if path.isEmpty || request.file.isSome then .error .rejected
  else .ok { request with file := some path }

def setTokens (request : Request) : Except Settled Request :=
  if request.tokens then .error .rejected else .ok { request with tokens := true }

end Request

/-- The state between two arguments. -/
structure Reading where
  request : Request
  /-- The setting whose value is to come. -/
  pending : Option Setting
  /-- No argument is an option any more. -/
  filesOnly : Bool
deriving DecidableEq, Repr

namespace Reading

def start : Reading := ⟨.empty, none, false⟩

/-- An argument that looks like an option is more than a single dash. -/
def looksLikeOption (argument : List Char) : Bool :=
  match argument with
  | '-' :: _ :: _ => true
  | _ => false

/-- Reads an option that starts with two dashes. -/
def long (reading : Reading) (argument : String) : Except Settled Reading := do
  let chars := argument.toList
  let flag := String.ofList (chars.takeWhile (· ≠ '='))
  match chars.dropWhile (· ≠ '=') with
  | [] =>
    if reading.pending.isSome then throw .rejected
    match Setting.ofFlag? flag with
    | some setting => pure { reading with pending := some setting }
    | none =>
      if flag = "--tokens" then pure { reading with request := ← reading.request.setTokens }
      else if flag = "--version" then throw .version
      else if flag = "--help" then throw .help
      else throw .rejected
  | _ :: value =>
    if reading.pending.isSome then throw .rejected
    match Setting.ofFlag? flag with
    | some setting =>
      pure { reading with request := ← reading.request.set setting (String.ofList value) }
    | none => throw .rejected

/-- Reads options that start with one dash: letters of which the first that is known counts. -/
def short (reading : Reading) (letters : List Char) : Except Settled Reading :=
  if reading.pending.isSome then .error .rejected
  else
    match letters with
    | 'V' :: _ => .error .version
    | 'h' :: _ => .error .help
    | _ => .error .rejected

/-- Reads one argument. -/
def argument (reading : Reading) (argument : String) : Except Settled Reading := do
  let chars := argument.toList
  if !reading.filesOnly && argument = "--" then pure { reading with filesOnly := true }
  else if !reading.filesOnly && looksLikeOption chars then
    match chars with
    | '-' :: '-' :: _ => reading.long argument
    | _ => reading.short (chars.drop 1)
  else
    match reading.pending with
    | none => pure { reading with request := ← reading.request.setFile argument }
    | some setting =>
      if reading.filesOnly then throw .rejected
      pure { reading with request := ← reading.request.set setting argument, pending := none }

/-- The request after the last argument.  No value may still be to come. -/
def finish (reading : Reading) : Except Settled Request :=
  if reading.pending.isSome then .error .rejected else .ok reading.request

end Reading

/-- The request that the arguments make. -/
def Request.ofArguments (arguments : List String) : Except Settled Request := do
  (← arguments.foldlM Reading.argument .start).finish

/-- The options of a parse for a request about the source of the given name. -/
def Request.options (request : Request) (name : String) : Options where
  fileName := some name
  unitName := request.unitName.getD Options.default.unitName
  anonymousName := request.anonymousName.getD Options.default.anonymousName
  maxNestingDepth := request.maxDepth.getD Options.default.maxNestingDepth

end ExprLang.Command
