import EditHistory.CommandLine.Arguments
import EditHistory.CommandLine.History
import EditHistory.CommandLine.Transfer

/-! Running commands. -/
namespace EditHistory
namespace CommandLine

variable [Compressor]

/-- The built-in defaults, one on a line. -/
def defaultLines : List String :=
  let d := Settings.default
  ["revdelta version 0.1.0", "PARALLEL=false", s!"DEFAULT_MIN_MATCH={d.minMatch}",
    s!"MIN_MATCH_FLOOR={Settings.minMatchFloor}", s!"DEFAULT_FULL_REVISION_INTERVAL={d.interval}",
    s!"DEFAULT_INPUT_TASK_LIMIT={d.inputLimit}", s!"DEFAULT_OUTPUT_TASK_LIMIT={d.outputLimit}",
    s!"DEFAULT_QUEUE_CAPACITY={d.capacity}", s!"DEFAULT_QUEUE_TIMEOUT={d.timeout / 1000}s",
    s!"DEFAULT_CHARSET={d.codec.charset.name}", s!"DEFAULT_SURROGATE_MODE={d.surrogates.name}",
    "sizeof(usize)=8"]

def runConfig (files : FileSystem) : Outcome :=
  ⟨files, 0, [], Utf8.ofString (String.join (defaultLines.map fun line => line ++ "\n"))⟩

/-- Runs a command on a file system. -/
def Options.run (o : Options) (files : FileSystem) : Outcome :=
  match o.command with
  | .diff d => d.run o files
  | .apply a => a.run o files
  | .inspect i => i.run o files
  | .history h => h.run o files
  | .config => runConfig files

end CommandLine
end EditHistory
