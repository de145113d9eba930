import EditHistory.CommandLine.Run

/-! The program: it loads what a command may touch, runs the command on that, and stores what has
changed. -/
namespace EditHistory
namespace Program

open CommandLine

def pathOf (l : Location) : String := "/" ++ "/".intercalate l

/-- The places that the steps of a path may lead through. -/
def places (here : Location) : List String → List Location
  | [] => [here]
  | name :: rest =>
    here :: places (if name = "." then here else if name = ".." then here.dropLast
      else here ++ [name]) rest

def placesOf (workingDirectory : Location) (path : String) : List Location :=
  places (if FileSystem.isAbsolute path then [] else workingDirectory) (pathNames path)

def load (l : Location) : IO (Option (Location × Node)) := do
  try
    let content ← IO.FS.readBinFile (pathOf l)
    return some (l, .file content.toList)
  catch
    | .inappropriateType .. => return some (l, .directory)
    | _ => return none

/-- What is on disk at places. -/
def loadAll (workingDirectory : Location) (ls : List Location) : IO FileSystem := do
  return ⟨← ls.eraseDups.filterMapM load, workingDirectory⟩

/-- Stores the files of `after` that are not the ones of `before`. -/
def storeChanges (before after : FileSystem) : IO Unit :=
  for l in (after.entries.map Prod.fst).eraseDups do
    if before.node? l != after.node? l then
      if let some (.file content) := after.node? l then
        IO.FS.writeBinFile (pathOf l) ⟨content.toArray⟩

def usageText : String :=
  "usage: revdelta [-f] [-q | -v] [--json] <command>\n" ++
  "  diff PREVIOUS CURRENT [OUTPUT]   write the payload that leads to the current text\n" ++
  "  apply PREVIOUS PAYLOAD [OUTPUT]  write the text that a payload leads to\n" ++
  "  inspect PAYLOAD                  list the edits of a payload\n" ++
  "  history FILES...                 record the revisions of one article\n" ++
  "  config                           list the defaults\n"

def runOptions (o : Options) : IO UInt32 := do
  let workingDirectory := pathNames (← IO.currentDir).toString
  let before ← loadAll workingDirectory (o.command.paths.flatMap (placesOf workingDirectory))
  let r := o.run before
  storeChanges before r.files
  (← IO.getStdout).write ⟨r.output.toArray⟩
  (← IO.getStderr).write ⟨r.notes.toArray⟩
  return r.exitCode.toUInt32

def answer (arguments : List String) : IO UInt32 := do
  match readArguments arguments with
  | .ok o => runOptions o
  | .error .versionWanted => IO.println "revdelta 0.1.0"; return 0
  | .error u =>
    if u.exitCode = 0 then IO.print usageText else IO.eprint usageText
    return u.exitCode.toUInt32

end Program
end EditHistory

def main (arguments : List String) : IO UInt32 := EditHistory.Program.answer arguments
