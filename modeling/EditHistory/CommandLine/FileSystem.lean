import EditHistory.Text.Utf8

/-! A file system as a value: which files and directories there are, and what the files hold. Paths
are followed step by step from the root or from the working directory. -/
namespace EditHistory

inductive Node where
  | file (content : Bytes)
  | directory
deriving DecidableEq, Repr

/-- A place in a file system: the names from the root down to it. -/
abbrev Location := List String

structure FileSystem where
  /-- What there is below the root. Of two entries for one place the first counts. -/
  entries : List (Location × Node)
  workingDirectory : Location
deriving DecidableEq, Repr

inductive FileError where
  | notFound
  | notDirectory
  | isDirectory
  | nameTooLong
  | nulInName
  | notUtf8
deriving DecidableEq, Repr

def FileError.message : FileError → String
  | .notFound => "No such file or directory (os error 2)"
  | .notDirectory => "Not a directory (os error 20)"
  | .isDirectory => "Is a directory (os error 21)"
  | .nameTooLong => "File name too long (os error 36)"
  | .nulInName => "file name contained an unexpected NUL byte"
  | .notUtf8 => "stream did not contain valid UTF-8"

/-- Cuts at slashes. -/
def splitSlashes : List Char → List (List Char)
  | [] => [[]]
  | c :: rest =>
    if c = '/' then [] :: splitSlashes rest
    else match splitSlashes rest with
      | [] => [[c]]
      | name :: names => (c :: name) :: names

/-- The names in a path. Slashes that follow each other count as one. -/
def pathNames (path : String) : List String :=
  ((splitSlashes path.toList).filter fun name => !name.isEmpty).map String.ofList

namespace FileSystem

/-- What is at a place. The root is a directory. -/
def node? (fs : FileSystem) (l : Location) : Option Node :=
  if l = [] then some .directory else fs.entries.lookup l

/-- Puts a node at a place. -/
def put (fs : FileSystem) (l : Location) (n : Node) : FileSystem :=
  { fs with entries := (l, n) :: fs.entries }

theorem node?_put (fs : FileSystem) {l : Location} (hl : l ≠ []) (n : Node) (k : Location) :
    (fs.put l n).node? k = if k = l then some n else fs.node? k := by
  unfold node? put
  by_cases hk : k = l
  · subst hk; simp [hl]
  · have : (k == l) = false := by simpa using hk
    simp [List.lookup_cons, hk, this]

/-- The longest name, in bytes. -/
def maxNameLength : Nat := 255

/-- The longest path, in bytes. -/
def maxPathLength : Nat := 4095

/-- Follows names downwards. Every step needs a directory to be taken from; the last one may lead to
a place where there is nothing. -/
def walk (fs : FileSystem) (here : Location) : List String → Except FileError Location
  | [] => .ok here
  | name :: rest =>
    match fs.node? here with
    | none => .error .notFound
    | some (.file _) => .error .notDirectory
    | some .directory =>
      if name = "." then walk fs here rest
      else if name = ".." then walk fs here.dropLast rest
      else if maxNameLength < name.utf8ByteSize then .error .nameTooLong
      else walk fs (here ++ [name]) rest

def isAbsolute (path : String) : Bool := path.toList.head? == some '/'

/-- A path with a slash at its end names a directory. -/
def namesDirectory (path : String) : Bool := path.toList.getLast? == some '/'

/-- The place that the names of a path lead to. -/
def locate (fs : FileSystem) (path : String) (names : List String) : Except FileError Location :=
  if '\x00' ∈ path.toList then .error .nulInName
  else if maxPathLength < path.utf8ByteSize then .error .nameTooLong
  else fs.walk (if isAbsolute path then [] else fs.workingDirectory) names

/-- The place of an existing file or directory. -/
def find (fs : FileSystem) (path : String) : Except FileError (Location × Node) := do
  let names := pathNames path ++ (if namesDirectory path then ["."] else [])
  let l ← fs.locate path names
  match fs.node? l with
  | some n => return (l, n)
  | none => throw .notFound

def doesExist (fs : FileSystem) (path : String) : Bool :=
  match fs.find path with
  | .ok _ => true
  | .error _ => false

def readBytes (fs : FileSystem) (path : String) : Except FileError Bytes := do
  match (← fs.find path).2 with
  | .file content => return content
  | .directory => throw .isDirectory

/-- Reads a file as UTF-8. -/
def readText (fs : FileSystem) (path : String) : Except FileError Text := do
  (Utf8.decode (← fs.readBytes path)).mapError fun _ => .notUtf8

/-- The place where a path creates a file, or replaces one. A path that names a directory is refused
without a look at its last name, but what leads there has to be a directory. -/
def target (fs : FileSystem) (path : String) : Except FileError Location := do
  let names := pathNames path
  if namesDirectory path then
    let _ ← fs.locate path (names.dropLast ++ ["."])
    throw .isDirectory
  else
    let l ← fs.locate path names
    if fs.node? l == some .directory then throw .isDirectory
    return l

/-- Creates a file or replaces its content. -/
def write (fs : FileSystem) (path : String) (content : Bytes) : Except FileError FileSystem := do
  return fs.put (← fs.target path) (.file content)

end FileSystem
end EditHistory
