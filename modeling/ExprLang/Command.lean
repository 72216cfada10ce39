import ExprLang.Command.Directory
import ExprLang.Command.Request
import ExprLang.Command.Sample
import ExprLang.Parser.Item
import ExprLang.Tree.Outline

/-!
# The Command

The command lists the tree or the tokens of one source.  Without a file the source is the sample
program.
-/

namespace ExprLang.Command

/-- What a run of the command leaves: its exit status and its two streams. -/
structure Output where
  status : Nat
  stdout : String
  stderr : String
deriving DecidableEq, Repr

namespace Output

def success (lines : List String) : Output := ⟨0, String.join (lines.map (· ++ "\n")), ""⟩

def failure (message : String) : Output := ⟨1, "", message ++ "\n"⟩

/-- The arguments are no request. -/
def usage : Output :=
  ⟨2, "", "Usage: kaleidoscope [FILE] [--unit-name NAME] [--anon-name NAME] " ++
    "[--max-depth DEPTH] [--tokens]\n"⟩

end Output

def versionLine : String := "kaleidoscope 0.1.0"

def helpLines : List String :=
  ["Parses Kaleidoscope source and prints its syntax tree", "",
    "Usage: kaleidoscope [OPTIONS] [FILE]"]

def Settled.output : Settled → Output
  | rejected => .usage
  | version => .success [versionLine]
  | help => .success helpLines

/-- Lists what the request asks for. -/
def Request.list (request : Request) (source name : String) : Output :=
  if request.tokens then
    match tokenize source (some name) with
    | .ok tokens => .success (tokens.map Token.listing)
    | .error diagnostic => .failure (diagnostic.view source)
  else
    match (parse source (request.options name)).result with
    | .ok unit => .success (Node.unit unit).dump
    | .error (.failure diagnostic) => .failure (diagnostic.view source)
    | .error (.defect defect) => .failure defect.message

/-- The output for a request, given what came of reading its file. -/
def Request.output (request : Request) (content : String → Except ReadFailure String) : Output :=
  match request.file with
  | none => request.list sampleSource sampleName
  | some path =>
    match content path with
    | .ok source => request.list source (reportedName path)
    | .error reason => .failure ("Failed to read " ++ path ++ ": " ++ reason.message)

/-- The output of a run in a directory. -/
def run (directory : Directory) (arguments : List String) : Output :=
  match Request.ofArguments arguments with
  | .error settled => settled.output
  | .ok request => request.output directory.read

end ExprLang.Command
