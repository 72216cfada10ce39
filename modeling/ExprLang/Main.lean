import ExprLang.Command

/-!
# The Program
-/

open ExprLang Command

/-- What a failure means for a file.  A path that passes through a file fails when it is opened, and
a directory fails when it is read. -/
def readFailure : IO.Error → ReadFailure
  | .noFileOrDirectory .. => .missing
  | .inappropriateType (some _) .. => .notDirectory
  | .inappropriateType none .. => .isDirectory
  | .invalidArgument .. => .nameTooLong
  | failure => .other (toString failure)

/-- Reads a file as text. -/
def readText (path : String) : IO (Except ReadFailure String) := do
  try
    return decode (← IO.FS.readBinFile path)
  catch failure => return .error (readFailure failure)

/-- The output for a request about the files that the program can reach. -/
def requestOutput (request : Request) : IO Output := do
  match request.file with
  | none => return request.output fun _ ↦ .error .missing
  | some path =>
    let content ← readText path
    return request.output fun _ ↦ content

def main (arguments : List String) : IO UInt32 := do
  let output ← match Request.ofArguments arguments with
    | .error settled => pure settled.output
    | .ok request => requestOutput request
  (← IO.getStdout).putStr output.stdout
  (← IO.getStderr).putStr output.stderr
  return output.status.toUInt32
