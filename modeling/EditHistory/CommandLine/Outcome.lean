import EditHistory.CommandLine.FileSystem
import EditHistory.Report.Json

/-! What running a command comes to, and what all commands share: reading inputs, delivering an
output, and reporting a failure. -/
namespace EditHistory
namespace CommandLine

/-- The files after a command, its exit code, and what it wrote to the two standard streams. -/
structure Outcome where
  files : FileSystem
  exitCode : Nat
  output : Bytes
  notes : Bytes

/-- A line for the reader of the error stream. -/
def noteLine (message : String) : Bytes := Utf8.ofString s!"revdelta: {message}\n"

/-- A command that failed before it touched anything. -/
def Outcome.failure (files : FileSystem) (message : String) : Outcome :=
  ⟨files, 1, [], noteLine message⟩

/-- The fault of a path. -/
def faultAt {α : Type} (path : String) (r : Except FileError α) : Except String α :=
  r.mapError fun e => s!"{path}: {e.message}"

/-- Reads a revision, which is a file in UTF-8. -/
def readRevision (files : FileSystem) (path : String) : Except String Text :=
  faultAt path (files.readText path)

/-- Writes to a file, or to standard output where no file is named. An existing file is only
replaced by force. -/
def deliver (files : FileSystem) (target : Option String) (force : Bool) (content : Bytes) :
    Except String (FileSystem × Bytes) :=
  match target with
  | none => .ok (files, content)
  | some path =>
    if files.doesExist path && !force then
      .error s!"output file exists, use -f to overwrite: {path}"
    else (faultAt path (files.write path content)).map fun files => (files, [])

/-- A report on the error stream. -/
def reportPage (report : Json) : Bytes := Utf8.ofString (report.page ++ "\n")

end CommandLine
end EditHistory
