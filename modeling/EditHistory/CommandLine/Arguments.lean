import EditHistory.CommandLine.Vocabulary

/-! Reading arguments. Words are taken from left to right. Switches take effect at once; a parameter
waits for its value, and plain words wait to be followed by something else, before they are
checked, so that an unknown option is reported in front of a bad value that it follows. What
concerns the whole level, conflicts and missing words, is checked at its end. -/
namespace EditHistory
namespace CommandLine

/-- The forms that an argument can have. -/
inductive Word where
  /-- Two hyphens: only plain words follow. -/
  | escape
  | long (name : List Char) (value? : Option (List Char))
  /-- One hyphen and letters. -/
  | cluster (letters : List Char)
  | plain (chars : List Char)
deriving DecidableEq, Repr

/-- Splits at the first equals sign. -/
def splitValue (cs : List Char) : List Char × Option (List Char) :=
  match cs.dropWhile (· != '=') with
  | [] => (cs, none)
  | _ :: value => (cs.takeWhile (· != '='), some value)

def Word.ofChars : List Char → Word
  | ['-', '-'] => .escape
  | '-' :: '-' :: rest => .long (splitValue rest).1 (splitValue rest).2
  | '-' :: c :: rest => .cluster (c :: rest)
  | cs => .plain cs

/-- What has been accepted at a level. -/
structure Given where
  switches : List Switch
  assignments : List Assignment
  words : List String

/-- What is still to be checked. -/
inductive Pending where
  | nothing
  | parameter (p : Parameter) (value? : Option (List Char))
  | words (ws : List (List Char))

structure Progress where
  given : Given
  pending : Pending

namespace Progress

def start : Progress := ⟨⟨[], [], []⟩, .nothing⟩

/-- A parameter is given its value. -/
def assign (level : Level) (g : Given) (p : Parameter) (value : List Char) : Except Usage Given :=
  if g.assignments.any fun a => a.parameter = p then .error .conflict
  else do
    let a ← p.read level value
    return { g with assignments := g.assignments ++ [a] }

/-- Checks what is pending. -/
def settle (level : Level) (p : Progress) : Except Usage Given :=
  match p.pending with
  | .nothing => .ok p.given
  | .parameter _ none => .error .refusedValue
  | .parameter q (some value) => assign level p.given q value
  | .words ws => do
    let ws ← ws.mapM readPath
    return { p.given with words := p.given.words ++ ws }

/-- A switch takes effect. Only the call for notes may be repeated. -/
def react (level : Level) (p : Progress) (s : Switch) : Except Usage Progress := do
  let g ← p.settle level
  match s with
  | .help => throw .helpWanted
  | .version => throw .versionWanted
  | _ =>
    if s ≠ .verbose ∧ s ∈ g.switches then throw .conflict
    return ⟨{ g with switches := s :: g.switches }, .nothing⟩

/-- A parameter takes its value from the same argument or waits for the next one. -/
def introduce (level : Level) (p : Progress) (q : Parameter) (value? : Option (List Char)) :
    Except Usage Progress := do
  let g ← p.settle level
  match value? with
  | some value => return ⟨← assign level g q value, .nothing⟩
  | none => return ⟨g, .parameter q none⟩

def takeLong (level : Level) (p : Progress) (name : List Char) (value? : Option (List Char)) :
    Except Usage Progress :=
  match level.ofLong? name with
  | none => .error .unknownArgument
  | some (.switch s) => if value?.isSome then .error .needlessValue else p.react level s
  | some (.parameter q) => p.introduce level q value?

/-- The value in the rest of a cluster; an equals sign in front of it does not count. -/
def clusterValue : List Char → Option (List Char)
  | [] => none
  | '=' :: rest => some rest
  | cs => some cs

/-- Takes letters up to the first one that stands for a parameter. -/
def takeCluster (level : Level) (p : Progress) : List Char → Except Usage Progress
  | [] => .ok p
  | c :: rest =>
    match level.ofShort? c with
    | none => .error .unknownArgument
    | some (.switch s) => do takeCluster level (← p.react level s) rest
    | some (.parameter q) => p.introduce level q (clusterValue rest)

/-- Takes a plain word that is no value of a parameter. -/
def addWord (subcommand : Subcommand) (p : Progress) (w : List Char) : Except Usage Progress :=
  match subcommand.maxWords?, p.pending with
  | none, .words ws => .ok { p with pending := .words (ws ++ [w]) }
  | none, _ => return ⟨← p.settle (.within subcommand), .words [w]⟩
  | some limit, _ => do
    let waiting := match p.pending with
      | .words ws => ws.length
      | _ => 0
    if limit ≤ p.given.words.length + waiting then throw .unknownArgument
    return ⟨← p.settle (.within subcommand), .words [w]⟩

def takePlain (subcommand : Subcommand) (p : Progress) (w : List Char) : Except Usage Progress :=
  match p.pending with
  | .parameter q none => .ok { p with pending := .parameter q (some w) }
  | _ => p.addWord subcommand w

end Progress

namespace Given

/-- Silence and notes contradict each other. -/
def checkConflicts (g : Given) : Except Usage Unit :=
  if Switch.quiet ∈ g.switches ∧ Switch.verbose ∈ g.switches then .error .conflict else .ok ()

def findOutput? (g : Given) : Option String :=
  g.assignments.findSome? fun | .output path => some path | _ => none

/-- A third word names the output. -/
def outputWord? (g : Given) : Option String := g.words[2]?

/-- What holds at the end of a subcommand's level. -/
def check (subcommand : Subcommand) (g : Given) : Except Usage Given := do
  if subcommand.maxWords?.isSome ∧ g.findOutput?.isSome ∧ g.outputWord?.isSome then throw .conflict
  g.checkConflicts
  if g.words.length < subcommand.minWords then throw .missingArgument
  return g

def text (g : Given) : Bool := Switch.text ∈ g.switches

/-- The codec that is asked for; what is not given has its default. -/
def codec (g : Given) : Codec where
  charset := (g.assignments.findSome? fun | .charset c => some c | _ => none).getD
    Settings.defaultCodec.charset
  compress := Switch.compress ∈ g.switches
  level := (g.assignments.findSome? fun | .level n => some n | _ => none).getD
    Settings.defaultCodec.level

def threshold (g : Given) : Nat :=
  (g.assignments.findSome? fun | .minMatch n => some n | _ => none).getD Settings.default.minMatch

def heading (g : Given) : Heading where
  articleId := (g.assignments.findSome? fun | .articleId n => some n | _ => none).getD 1
  articleName :=
    (g.assignments.findSome? fun | .articleName s => some s | _ => none).getD "article"

def settings (g : Given) : Settings :=
  { Settings.default with
    minMatch := g.threshold
    interval := (g.assignments.findSome? fun | .interval n => some n | _ => none).getD
      Settings.default.interval
    inputLimit := (g.assignments.findSome? fun | .inputLimit n => some n | _ => none).getD
      Settings.default.inputLimit
    outputLimit := (g.assignments.findSome? fun | .outputLimit n => some n | _ => none).getD
      Settings.default.outputLimit
    codec := g.codec
    surrogates := (g.assignments.findSome? fun | .surrogates m => some m | _ => none).getD
      Settings.default.surrogates
    verify := Switch.noVerify ∉ g.switches
    reportDirectory := g.assignments.findSome? fun | .dumpDir path => some path | _ => none }

/-- The command that a complete level stands for. -/
def command (subcommand : Subcommand) (g : Given) : Command :=
  let output := g.findOutput?.or g.outputWord?
  match subcommand, g.words with
  | .diff, previous :: current :: _ =>
    .diff ⟨previous, current, output, g.text, g.threshold, g.codec⟩
  | .apply, previous :: payload :: _ => .apply ⟨previous, payload, output, g.text, g.codec⟩
  | .inspect, payload :: _ => .inspect ⟨payload, g.text, g.codec⟩
  | .history, files =>
    .history ⟨files, g.findOutput?, g.heading, Switch.replayCheck ∈ g.switches, g.settings⟩
  | _, _ => .config

end Given

/-- Reads the arguments behind a subcommand. -/
def readLevel (subcommand : Subcommand) (escaped : Bool) (p : Progress) :
    List (List Char) → Except Usage Given
  | [] => do (← p.settle (.within subcommand)).check subcommand
  | w :: rest =>
    if escaped then do readLevel subcommand true (← p.addWord subcommand w) rest
    else
      match Word.ofChars w with
      | .escape => readLevel subcommand true p rest
      | .long name value? => do
        readLevel subcommand false (← p.takeLong (.within subcommand) name value?) rest
      | .cluster cs => do
        readLevel subcommand false (← p.takeCluster (.within subcommand) cs) rest
      | .plain cs => do readLevel subcommand false (← p.takePlain subcommand cs) rest

def isHelpWord (cs : List Char) : Bool := cs = ['h', 'e', 'l', 'p']

/-- The answer to a call for help on a subcommand. -/
def helpOn : List (List Char) → Usage
  | [] => .helpWanted
  | [w] => if isHelpWord w || (Subcommand.ofName? w).isSome then .helpWanted else .unknownSubcommand
  | _ => .unknownSubcommand

/-- Where no subcommand was found. -/
def withoutSubcommand (p : Progress) : Usage :=
  if p.given.switches.isEmpty then .nothingGiven else .noSubcommand

/-- More calls for notes than this ask for nothing more. -/
def maxVerbosity : Nat := 2

/-- Puts the levels in front of a subcommand and behind it together. -/
def combine (subcommand : Subcommand) (outer inner : Given) : Options :=
  let has (s : Switch) : Bool := s ∈ outer.switches ∨ s ∈ inner.switches
  let calls := inner.switches.count .verbose
  { command := inner.command subcommand
    force := has .force
    quiet := has .quiet
    verbosity := min maxVerbosity (if calls = 0 then outer.switches.count .verbose else calls)
    json := has .json }

/-- Reads the arguments up to the subcommand, and on from there. -/
def readTop (p : Progress) : List (List Char) → Except Usage Options
  | [] => .error (withoutSubcommand p)
  | w :: rest =>
    match Word.ofChars w with
    | .escape =>
      match rest with
      | [] => .error (withoutSubcommand p)
      | next :: _ =>
        if isHelpWord next || (Subcommand.ofName? next).isSome then .error .unknownArgument
        else .error .unknownSubcommand
    | .long name value? => do readTop (← p.takeLong .top name value?) rest
    | .cluster cs => do readTop (← p.takeCluster .top cs) rest
    | .plain cs =>
      match Subcommand.ofName? cs with
      | some subcommand => do
        let inner ← readLevel subcommand false Progress.start rest
        p.given.checkConflicts
        return combine subcommand p.given inner
      | none => .error (if isHelpWord cs then helpOn rest else .unknownSubcommand)

/-- Reads the arguments of a call. -/
def readArguments (arguments : List String) : Except Usage Options :=
  readTop Progress.start (arguments.map String.toList)

end CommandLine
end EditHistory
