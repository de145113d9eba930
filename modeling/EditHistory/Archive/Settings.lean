import EditHistory.Transport.Envelope

/-! The settings under which histories are recorded. -/
namespace EditHistory

/-- What happens to a revision with an unpaired surrogate. -/
inductive SurrogateMode where
  /-- It is dropped. -/
  | discard
  /-- Its unpaired surrogates are replaced. -/
  | replace
deriving DecidableEq, Repr

namespace SurrogateMode

def name : SurrogateMode → String
  | .discard => "discard"
  | .replace => "replace"

/-- The mode of a name, in whatever case. -/
def ofName? (s : String) : Option SurrogateMode :=
  let n := String.ofList (s.toList.map Char.toLower)
  if n = "discard" || n = "discard-revision" then some .discard
  else if n = "replace" || n = "replace-surrogates" then some .replace
  else none

end SurrogateMode

structure Settings where
  /-- Common blocks have to be longer than this. -/
  minMatch : Nat
  /-- Every stored diff whose predecessors number a multiple of this is a full revision. -/
  interval : Nat
  /-- The size over which a task of revisions ends. -/
  inputLimit : Nat
  /-- The size over which a task of diffs ends. -/
  outputLimit : Nat
  codec : Codec
  surrogates : SurrogateMode
  /-- Whether every diff is applied and compared with its revision. -/
  verify : Bool
  /-- Where a report on a failed comparison goes. -/
  reportDirectory : Option String
  /-- How long a queue may stand still, in milliseconds. -/
  timeout : Nat
  /-- The number of tasks that a queue holds. -/
  capacity : Nat
deriving DecidableEq, Repr

inductive TaskLimit where
  | input
  | output
deriving DecidableEq, Repr

def TaskLimit.name : TaskLimit → String
  | .input => "input"
  | .output => "output"

inductive SettingsError where
  | minMatchTooSmall (minMatch : Nat)
  | zeroInterval
  | zeroTaskLimit (limit : TaskLimit)
  | zeroCapacity
  | zeroTimeout
  | levelTooHigh (level : Nat)
  | unknownSurrogateMode (name : String)
deriving DecidableEq, Repr

namespace Settings

/-- The least threshold for common blocks. -/
def minMatchFloor : Nat := 7

def maxLevel : Nat := 9

def defaultCodec : Codec := ⟨.utf8, false, 6⟩

def default : Settings where
  minMatch := 12
  interval := 1000
  inputLimit := 8 * 1024 * 1024
  outputLimit := 4 * 1024 * 1024
  codec := defaultCodec
  surrogates := .discard
  verify := true
  reportDirectory := none
  timeout := 60000
  capacity := 16

/-- The first setting that is out of range is reported. -/
def validate (s : Settings) : Except SettingsError Unit :=
  if s.minMatch < minMatchFloor then .error (.minMatchTooSmall s.minMatch)
  else if s.interval = 0 then .error .zeroInterval
  else if s.inputLimit = 0 then .error (.zeroTaskLimit .input)
  else if s.outputLimit = 0 then .error (.zeroTaskLimit .output)
  else if s.capacity = 0 then .error .zeroCapacity
  else if s.timeout = 0 then .error .zeroTimeout
  else if maxLevel < s.codec.level then .error (.levelTooHigh s.codec.level)
  else .ok ()

end Settings

def SettingsError.message : SettingsError → String
  | .minMatchTooSmall n =>
    s!"minimum match length {n} is below the floor of {Settings.minMatchFloor}"
  | .zeroInterval => "full revision interval must be at least 1"
  | .zeroTaskLimit limit => s!"{limit.name} task limit must be non-zero"
  | .zeroCapacity => "queue capacity must be non-zero"
  | .zeroTimeout => "queue timeout must be non-zero"
  | .levelTooHigh level => s!"compression level {level} out of range (0-{Settings.maxLevel})"
  | .unknownSurrogateMode name => s!"unknown surrogate mode '{name}' (expected discard or replace)"

end EditHistory
