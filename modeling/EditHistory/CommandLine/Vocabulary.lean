import EditHistory.CommandLine.ByteSize
import EditHistory.CommandLine.Options

/-! The words of the command line: subcommands, switches, and parameters with their values. -/
namespace EditHistory
namespace CommandLine

/-- Why arguments do not come to a command. -/
inductive Usage where
  | helpWanted
  | versionWanted
  | nothingGiven
  | noSubcommand
  | unknownSubcommand
  | unknownArgument
  /-- A value that is missing, an empty path, or none of the listed choices. -/
  | refusedValue
  /-- A number or size that is malformed or out of range. -/
  | malformedValue
  /-- A value for a switch. -/
  | needlessValue
  | conflict
  | missingArgument
deriving DecidableEq, Repr

/-- The exit code: help and version were asked for, the rest is at fault. -/
def Usage.exitCode : Usage → Nat
  | .helpWanted | .versionWanted => 0
  | _ => 2

inductive Subcommand where
  | diff
  | apply
  | inspect
  | history
  | config
deriving DecidableEq, Repr

namespace Subcommand

def name : Subcommand → String
  | diff => "diff"
  | apply => "apply"
  | inspect => "inspect"
  | history => "history"
  | config => "config"

def all : List Subcommand := [diff, apply, inspect, history, config]

def ofName? (cs : List Char) : Option Subcommand := all.find? fun c => c.name.toList = cs

/-- The number of plain words that it needs. -/
def minWords : Subcommand → Nat
  | diff | apply => 2
  | inspect | history => 1
  | config => 0

/-- The number of plain words that it takes, if that is bounded. -/
def maxWords? : Subcommand → Option Nat
  | diff | apply => some 3
  | inspect => some 1
  | history => none
  | config => some 0

end Subcommand

/-- Options without a value. -/
inductive Switch where
  | help
  | version
  | force
  | quiet
  | verbose
  | json
  | text
  | compress
  | noVerify
  | replayCheck
deriving DecidableEq, Repr

namespace Switch

def long : Switch → String
  | help => "help"
  | version => "version"
  | force => "force"
  | quiet => "quiet"
  | verbose => "verbose"
  | json => "json"
  | text => "text"
  | compress => "compress"
  | noVerify => "no-verify"
  | replayCheck => "replay-check"

def short? : Switch → Option Char
  | help => some 'h'
  | version => some 'V'
  | force => some 'f'
  | quiet => some 'q'
  | verbose => some 'v'
  | json | text | compress | noVerify | replayCheck => none

/-- The switches of every level. -/
def everywhere : List Switch := [help, force, quiet, verbose, json]

end Switch

/-- Options with a value. -/
inductive Parameter where
  | output
  | minMatch
  | charset
  | level
  | articleId
  | articleName
  | interval
  | inputLimit
  | outputLimit
  | surrogates
  | dumpDir
deriving DecidableEq, Repr

namespace Parameter

def long : Parameter → String
  | output => "output"
  | minMatch => "min-match"
  | charset => "charset"
  | level => "level"
  | articleId => "article-id"
  | articleName => "article-name"
  | interval => "interval"
  | inputLimit => "input-limit"
  | outputLimit => "output-limit"
  | surrogates => "surrogates"
  | dumpDir => "dump-dir"

def short? : Parameter → Option Char
  | output => some 'o'
  | level => some 'l'
  | _ => none

end Parameter

/-- A level of the command line: in front of the subcommand or behind it. -/
inductive Level where
  | top
  | within (subcommand : Subcommand)
deriving DecidableEq, Repr

namespace Level

def switches : Level → List Switch
  | top => .version :: Switch.everywhere
  | within .diff => [.text, .compress] ++ Switch.everywhere
  | within .apply | within .inspect => .text :: Switch.everywhere
  | within .history => [.compress, .noVerify, .replayCheck] ++ Switch.everywhere
  | within .config => Switch.everywhere

def parameters : Level → List Parameter
  | top | within .config => []
  | within .diff => [.output, .minMatch, .charset, .level]
  | within .apply => [.output, .charset]
  | within .inspect => [.charset]
  | within .history =>
    [.output, .articleId, .articleName, .interval, .minMatch, .inputLimit, .outputLimit,
      .surrogates, .dumpDir, .charset, .level]

inductive Choice where
  | switch (s : Switch)
  | parameter (p : Parameter)
deriving DecidableEq, Repr

/-- The option of a long name. -/
def ofLong? (level : Level) (name : List Char) : Option Choice :=
  match level.switches.find? fun s => s.long.toList = name with
  | some s => some (.switch s)
  | none => (level.parameters.find? fun p => p.long.toList = name).map .parameter

/-- The option of a letter. -/
def ofShort? (level : Level) (c : Char) : Option Choice :=
  match level.switches.find? fun s => s.short? = some c with
  | some s => some (.switch s)
  | none => (level.parameters.find? fun p => p.short? = some c).map .parameter

end Level

/-- A parameter with its value. -/
inductive Assignment where
  | output (path : String)
  | minMatch (n : Nat)
  | charset (charset : Charset)
  | level (n : Nat)
  | articleId (n : Nat)
  | articleName (name : String)
  | interval (n : Nat)
  | inputLimit (n : Nat)
  | outputLimit (n : Nat)
  | surrogates (mode : SurrogateMode)
  | dumpDir (path : String)
deriving DecidableEq, Repr

def Assignment.parameter : Assignment → Parameter
  | output _ => .output
  | minMatch _ => .minMatch
  | charset _ => .charset
  | level _ => .level
  | articleId _ => .articleId
  | articleName _ => .articleName
  | interval _ => .interval
  | inputLimit _ => .inputLimit
  | outputLimit _ => .outputLimit
  | surrogates _ => .surrogates
  | dumpDir _ => .dumpDir

/-- Paths are not empty. -/
def readPath (cs : List Char) : Except Usage String :=
  if cs.isEmpty then .error .refusedValue else .ok (String.ofList cs)

def readNumber (least : Nat) (cs : List Char) : Except Usage Nat :=
  match Decimal.read cs with
  | .ok n => if least ≤ n then .ok n else .error .malformedValue
  | .error _ => .error .malformedValue

def readSize (cs : List Char) : Except Usage Nat :=
  (ByteSize.read cs).mapError fun _ => .malformedValue

/-- A level of packing. It is read as a signed number, so a negative zero is one. -/
def readPackLevel (cs : List Char) : Except Usage Nat :=
  let n := match cs with
    | '-' :: c :: rest => (Decimal.readDigits 0 (c :: rest)).map fun n => -(n : Int)
    | _ => (Decimal.read cs).map Int.ofNat
  match n with
  | .ok n => if 0 ≤ n ∧ n ≤ Settings.maxLevel then .ok n.toNat else .error .malformedValue
  | .error _ => .error .malformedValue

def readCharset (cs : List Char) : Except Usage Charset :=
  match String.ofList cs with
  | "utf8" => .ok .utf8
  | "utf16le" => .ok .utf16le
  | "utf16be" => .ok .utf16be
  | _ => .error .refusedValue

def readSurrogates (cs : List Char) : Except Usage SurrogateMode :=
  match String.ofList cs with
  | "discard" => .ok .discard
  | "replace" => .ok .replace
  | _ => .error .refusedValue

/-- Reads the value of a parameter. The threshold of a history is not bounded here, because
the settings of a history are checked as a whole. -/
def Parameter.read (level : Level) (p : Parameter) (cs : List Char) : Except Usage Assignment :=
  match p with
  | .output => .output <$> readPath cs
  | .minMatch => .minMatch <$> readNumber (if level = .within .history then 0 else 1) cs
  | .charset => .charset <$> readCharset cs
  | .level => .level <$> readPackLevel cs
  | .articleId => .articleId <$> readNumber 0 cs
  | .articleName => .ok (.articleName (String.ofList cs))
  | .interval => .interval <$> readNumber 1 cs
  | .inputLimit => .inputLimit <$> readSize cs
  | .outputLimit => .outputLimit <$> readSize cs
  | .surrogates => .surrogates <$> readSurrogates cs
  | .dumpDir => .dumpDir <$> readPath cs

end CommandLine
end EditHistory
