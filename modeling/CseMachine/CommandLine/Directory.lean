import CseMachine.CommandLine

/-!
The directory a command runs in, as the texts of its files. A path is walked
part by part: an empty part and a point stay where they are, two points go one
directory up, and any other part is the name of a file or of a directory.
Nothing is known of what lies outside.
-/
namespace CseMachine

/-- Why the text at a path cannot be read. -/
inductive PathError where
  | missing
  | notDirectory
  | isDirectory
  | tooLong
  deriving DecidableEq, Repr

def PathError.message : PathError → String
  | .missing => "No such file or directory (os error 2)"
  | .notDirectory => "Not a directory (os error 20)"
  | .isDirectory => "Is a directory (os error 21)"
  | .tooLong => "File name too long (os error 36)"

/-- Where a path has led so far. -/
inductive Place where
  /-- A directory, by the names on the way down to it. -/
  | inside (names : List String)
  /-- A directory above. -/
  | outside
  | file (text : String)
  deriving DecidableEq, Repr

/-- Texts of files, each with the names that lead to it. -/
structure Directory where
  files : List (List String × String)
  deriving DecidableEq, Repr

namespace Directory

/-- Bytes in the longest path. -/
def pathLimit : Nat := 4095

/-- Bytes in the longest name. -/
def nameLimit : Nat := 255

/-- A part of a path that leads nowhere else. -/
def isIdle (part : String) : Bool := part = "" || part = "."

/-- Files by their paths. -/
def ofFiles (files : List (String × String)) : Directory :=
  ⟨files.map fun (path, text) => ((path.splitOn "/").filter (!isIdle ·), text)⟩

/-- What has the given names, if there is any. -/
def find? (d : Directory) (names : List String) : Option Place :=
  match d.files.lookup names with
  | some text => some (.file text)
  | none => if d.files.any (names.isPrefixOf ·.1) then some (.inside names) else none

/-- Follow one part of a path. -/
def follow (d : Directory) (place : Place) (part : String) : Except PathError Place :=
  match place with
  | .file _ => .error .notDirectory
  | .inside names =>
    if isIdle part then .ok place
    else if part = ".." then .ok (if names = [] then .outside else .inside names.dropLast)
    else if nameLimit < part.utf8ByteSize then .error .tooLong
    else match d.find? (names ++ [part]) with
      | some next => .ok next
      | none => .error .missing
  | .outside =>
    if isIdle part || part = ".." then .ok place
    else if nameLimit < part.utf8ByteSize then .error .tooLong
    else .error .missing

/-- Where a path leads; one that begins with a slash begins outside. -/
def resolve (d : Directory) (path : String) : Except PathError Place :=
  if path = "" then .error .missing
  else if pathLimit < path.utf8ByteSize then .error .tooLong
  else
    let start := if path.toList.head? = some '/' then .outside else .inside []
    (path.splitOn "/").foldlM d.follow start

/-- The text of the file at a path. -/
def text (d : Directory) (path : String) : Except PathError String := do
  match ← d.resolve path with
  | .file text => return text
  | _ => throw .isDirectory

/-- The files of a directory as a command reads them. -/
def read (d : Directory) : FileReader := fun path => (d.text path).mapError PathError.message

/-- A point stays in the directory. -/
theorem follow_point (d : Directory) (names : List String) :
    d.follow (.inside names) "." = .ok (.inside names) := rfl

/-- No path goes through a file. -/
theorem follow_file (d : Directory) (text part : String) :
    d.follow (.file text) part = .error .notDirectory := rfl

end Directory
end CseMachine
