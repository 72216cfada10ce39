/-!
# Directories of Files

A directory holds folders and files, each known by the names on the way to it.  A path is followed
one component at a time from the directory, and a file can only stand at its end.
-/

namespace ExprLang.Command

/-- Why a file cannot be read as text. -/
inductive ReadFailure where
  | missing
  | isDirectory
  | notDirectory
  | nameTooLong
  | notText
  /-- Any other reason. -/
  | other (reason : String)
deriving DecidableEq, Repr

def ReadFailure.message : ReadFailure → String
  | missing => "No such file or directory (os error 2)"
  | isDirectory => "Is a directory (os error 21)"
  | notDirectory => "Not a directory (os error 20)"
  | nameTooLong => "File name too long (os error 36)"
  | notText => "stream did not contain valid UTF-8"
  | other reason => reason

/-- The text that bytes encode in UTF-8. -/
def decode (bytes : ByteArray) : Except ReadFailure String :=
  match String.fromUTF8? bytes with
  | some text => .ok text
  | none => .error .notText

/-- A file below a directory: the names on the way to it, its own last, and its content. -/
structure File where
  path : List String
  content : ByteArray

structure Directory where
  folders : List (List String)
  files : List File

namespace Directory

def empty : Directory := ⟨[], []⟩

def components (path : String) : List String := path.splitOn "/"

/-- The components of a path that stand for no name of their own. -/
def isStep (component : String) : Bool := component = "" || component = "." || component = ".."

/-- The names after one more component. -/
def enter (names : List String) (component : String) : List String :=
  if component = "" ∨ component = "." then names
  else if component = ".." then names.dropLast
  else names ++ [component]

/-- What is entered one after the other on the way along the components. -/
def entered (names : List String) : List String → List (List String)
  | [] => []
  | component :: rest => enter names component :: entered (enter names component) rest

/-- The directory with a file written to a path.  What is entered on the way to it is a folder, and
the file takes the place of an earlier one. -/
def write (directory : Directory) (path : String) (content : ByteArray) : Directory :=
  let way := components path
  let names := way.foldl enter []
  { folders := entered [] way.dropLast ++ directory.folders
    files := ⟨names, content⟩ :: directory.files.filter fun file ↦ file.path ≠ names }

/-- What stands at a path of names. -/
inductive Place where
  | file (content : ByteArray)
  | directory
  | nothing

def place (directory : Directory) (names : List String) : Place :=
  match directory.files.find? fun file ↦ file.path = names with
  | some file => .file file.content
  | none => if names.isEmpty || directory.folders.contains names then .directory else .nothing

/-- The greatest number of bytes in a name. -/
def longestName : Nat := 255

/-- The greatest number of bytes in a path. -/
def longestPath : Nat := 4095

/-- Why a path cannot be read that leads outside the directory, where only the folder that it leads
to is known. -/
def outside (rest : List String) : ReadFailure :=
  if rest.all isStep then .isDirectory else .missing

/-- Follows the components of a path from the given names. -/
def follow (directory : Directory) (names : List String) :
    List String → Except ReadFailure ByteArray
  | [] =>
    match directory.place names with
    | .file content => .ok content
    | .directory => .error .isDirectory
    | .nothing => .error .missing
  | component :: rest =>
    match directory.place names with
    | .file _ => .error .notDirectory
    | .nothing => .error .missing
    | .directory =>
      if longestName < component.utf8ByteSize then .error .nameTooLong
      else if component = ".." ∧ names = [] then .error (outside rest)
      else directory.follow (enter names component) rest

/-- The text of the file at a path.  A path that starts with a slash leads outside. -/
def read (directory : Directory) (path : String) : Except ReadFailure String :=
  if longestPath < path.utf8ByteSize then .error .nameTooLong
  else
    match components path with
    | "" :: rest => .error (outside rest)
    | way => directory.follow [] way >>= decode

end Directory

/-- The name under which the file at a path is reported: its last component. -/
def reportedName (path : String) : String :=
  let names := (Directory.components path).filter fun component ↦
    component ≠ "" ∧ component ≠ "."
  match names.getLast? with
  | none => path
  | some name => if name = ".." then path else name

end ExprLang.Command
