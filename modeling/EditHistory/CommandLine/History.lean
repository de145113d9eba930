import EditHistory.Archive.Recorder
import EditHistory.Archive.Replay
import EditHistory.CommandLine.Inspect

/-! Recording the files of a history. Every stored diff becomes one line of a history file, which
alone is enough to rebuild the files. -/
namespace EditHistory
namespace CommandLine

variable [Compressor]

/-- A line of a history file. -/
structure HistoryLine where
  articleId : Nat
  part : Nat
  kind : TaskKind
  counter : Nat
  revisionId : Nat
  isFull : Bool
  edits : Nat
  widths : Widths
  /-- The patch in text form. -/
  payload : List Char
deriving DecidableEq, Repr

namespace HistoryLine

/-- The line for a diff of a task. -/
def ofDiff (codec : Codec) (task : Task Diff) (d : Diff) : Except EncodeError HistoryLine := do
  let payload ← codec.encodeText d.patch
  return ⟨task.heading.articleId, task.part, task.kind, d.counter, d.revisionId, d.isFull,
    d.patch.length, d.widths, payload⟩

def json (l : HistoryLine) : Json :=
  Json.object [("article_id", .num l.articleId), ("part_index", .num l.part),
    ("task_type", .str l.kind.name), ("revision_counter", .num l.counter),
    ("revision_id", .num l.revisionId), ("full", .bool l.isFull), ("parts", .num l.edits),
    ("codec_data", widthsJson l.widths), ("payload", .str (String.ofList l.payload))]

def written (l : HistoryLine) : Bytes := Utf8.ofString (l.json.line ++ "\n")

end HistoryLine

/-- How far the recording of a history has come. -/
structure Recording where
  recorder : Recorder
  lines : List HistoryLine
  stored : List Diff

namespace Recording

def start : Recording := ⟨Recorder.start, [], []⟩

/-- Adds the lines for finished diffs. A failure comes with what was done until then. -/
def addLines (codec : Codec) (task : Task Diff) (r : Recording) :
    List Diff → Except (Recording × String) Recording
  | [] => .ok r
  | d :: rest =>
    match HistoryLine.ofDiff codec task d with
    | .error e => .error (r, s!"revision {d.revisionId}: encode error: {e.message}")
    | .ok line => addLines codec task { r with lines := r.lines ++ [line] } rest

/-- Records a task and writes down the diffs that it finishes. -/
def step (settings : Settings) (r : Recording) (task : Task Revision) :
    Except (Recording × String) Recording := do
  let answer := r.recorder.process settings task
  let r := { r with recorder := answer.recorder }
  match answer.result with
  | .error e => throw (r, e.message)
  | .ok done =>
    let r ← done.foldlM (fun r t => addLines settings.codec t r t.items) r
    return { r with stored := r.stored ++ done.flatMap Task.items }

end Recording

namespace HistoryOptions

/-- The revision that a file holds. Their order gives files their places in time. -/
def revision (index : Nat) (path : String) (text : Text) : Revision :=
  ⟨index, index + 1, Instant.ofSeconds index, text, path, .anonymous "", false⟩

/-- Reads the files in their order. -/
def readRevisions (h : HistoryOptions) (files : FileSystem) : Except String (List Revision) := do
  let texts ← h.files.mapM (readRevision files)
  return (h.files.zip texts).mapIdx fun i x => revision i x.1 x.2

/-- Records revisions as far as possible, and says why no farther. -/
def record (h : HistoryOptions) (revisions : List Revision) : Recording × Option String :=
  match (Task.split h.heading h.settings.inputLimit revisions).foldlM
      (Recording.step h.settings) Recording.start with
  | .ok r => (r, none)
  | .error (r, message) => (r, some message)

/-- The revision that a diff names. The ids of files count from one. -/
def named? (revisions : List Revision) (d : Diff) : Option Revision :=
  if d.revisionId = 0 then none else revisions[d.revisionId - 1]?

/-- Compares a replayed text with the revision that it was stored for. It is a fault if there is none. -/
def checkReplayed (revisions : List Revision) (d : Diff) (text : Text) : Except String Unit :=
  match named? revisions d with
  | none => .error s!"index out of bounds: {revisions.length} revisions, but the id is {d.revisionId}"
  | some r =>
    if r.text.foldLineEndings = text.foldLineEndings then .ok ()
    else .error s!"replay: revision counter {d.counter} differs from {r.comment}"

/-- Replays the stored diffs and compares; the number of texts that agree. -/
def checkReplay (revisions : List Revision) (stored : List Diff) : Except String Nat := do
  let texts ← (Replay.reconstructAll stored).mapError fun e => s!"replay: {e.message}"
  (stored.zip texts).forM fun (d, text) => checkReplayed revisions d text
  return texts.length

def note (t : Tally) : String :=
  s!"history: {t.revisionsIn} revisions in, {t.diffsOut} diffs out ({t.fullRevisions} full), " ++
    s!"{t.noopDrops} unchanged, {t.surrogateDrops} dropped"

def report (t : Tally) : Json :=
  Json.object [("revisions_in", .num t.revisionsIn), ("diffs_out", .num t.diffsOut),
    ("full_revisions", .num t.fullRevisions), ("noop_drops", .num t.noopDrops),
    ("surrogate_drops", .num t.surrogateDrops), ("surrogates_replaced", .num t.surrogatesReplaced),
    ("tasks_out", .num t.tasksOut), ("diff_bytes", .num t.diffBytes)]

/-- What is said once everything is recorded: the notes, or why the replay failed. -/
def conclude (h : HistoryOptions) (o : Options) (revisions : List Revision) (r : Recording) :
    Except String Bytes := do
  let replayed ← if h.replayCheck then some <$> checkReplay revisions r.stored else pure none
  let replayNote := match replayed with
    | some n => if o.quiet then [] else noteLine s!"replay: {n} revisions verified"
    | none => []
  return replayNote ++ (if o.isChatty then noteLine (note r.recorder.tally) else []) ++
    (if o.json then reportPage (report r.recorder.tally) else [])

/-- Everything that happens before lines are written. -/
def prepare (h : HistoryOptions) (files : FileSystem) : Except String (List Revision) := do
  let _ ← (Recorder.create h.settings).mapError RecorderError.message
  h.readRevisions files

/-- The exit code and the notes of a recording. -/
def verdict (h : HistoryOptions) (o : Options) (revisions : List Revision) (r : Recording)
    (failure? : Option String) : Nat × Bytes :=
  match failure? with
  | some message => (1, noteLine message)
  | none =>
    match h.conclude o revisions r with
    | .error message => (1, noteLine message)
    | .ok notes => (0, notes)

def run (h : HistoryOptions) (o : Options) (files : FileSystem) : Outcome :=
  match h.prepare files with
  | .error message => .failure files message
  | .ok revisions =>
    let (r, failure?) := h.record revisions
    match deliver files h.output o.force (r.lines.flatMap HistoryLine.written) with
    | .error message => .failure files message
    | .ok (after, output) =>
      let (exitCode, notes) := h.verdict o revisions r failure?
      ⟨after, exitCode, output, notes⟩

end HistoryOptions

end CommandLine
end EditHistory
