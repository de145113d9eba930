import EditHistory.Archive.Settings
import EditHistory.Archive.Task

/-! What the tool can be told to do. -/
namespace EditHistory
namespace CommandLine

/-- Writes the payload that leads from one text file to another. -/
structure DiffOptions where
  previous : String
  current : String
  /-- Where the payload goes, if not to standard output. -/
  output : Option String
  /-- Whether the payload is written in text form. -/
  text : Bool
  threshold : Nat
  codec : Codec
deriving DecidableEq, Repr

/-- Writes the text that a payload makes of a text file. -/
structure ApplyOptions where
  previous : String
  payload : String
  output : Option String
  text : Bool
  codec : Codec
deriving DecidableEq, Repr

/-- Lists the edits of a payload. -/
structure InspectOptions where
  payload : String
  text : Bool
  codec : Codec
deriving DecidableEq, Repr

/-- Records text files as the revisions of one article. -/
structure HistoryOptions where
  files : List String
  output : Option String
  heading : Heading
  /-- Whether the stored diffs are replayed and compared with the files. -/
  replayCheck : Bool
  settings : Settings
deriving DecidableEq, Repr

inductive Command where
  | diff (options : DiffOptions)
  | apply (options : ApplyOptions)
  | inspect (options : InspectOptions)
  | history (options : HistoryOptions)
  /-- Lists the built-in defaults. -/
  | config
deriving DecidableEq, Repr

/-- The paths that a command may touch. -/
def Command.paths : Command → List String
  | .diff d => [d.previous, d.current] ++ d.output.toList
  | .apply a => [a.previous, a.payload] ++ a.output.toList
  | .inspect i => [i.payload]
  | .history h => h.files ++ h.output.toList
  | .config => []

structure Options where
  command : Command
  /-- Whether an existing output file is overwritten. -/
  force : Bool
  quiet : Bool
  verbosity : Nat
  /-- Whether figures are reported as JSON. -/
  json : Bool
deriving DecidableEq, Repr

namespace Options

/-- Notes on the work are asked for, and not silenced. -/
def isChatty (o : Options) : Bool := 0 < o.verbosity && !o.quiet

/-- The least severity that is logged. -/
def logLevel (o : Options) : String :=
  if o.quiet then "error"
  else if o.verbosity = 0 then "warn"
  else if o.verbosity = 1 then "info"
  else "debug"

end Options

end CommandLine
end EditHistory
