import EditHistory.Archive.Settings
import EditHistory.Archive.Task
import EditHistory.Patch.Between
import EditHistory.Wire.Body

/-! The recorder: tasks of revisions go in, tasks of diffs come out, one article at a time. Each
revision is stored as the patch from the one stored before it, and at regular intervals as a whole
text. A revision that changes nothing is not stored. -/
namespace EditHistory

inductive RecorderError where
  | settings (error : SettingsError)
  /-- A task that does not continue its article. -/
  | taskOrder (articleId : Nat) (kind : TaskKind) (part : Nat) (expected : Option Nat)
  | encode (articleId revisionId : Nat) (error : EncodeError)
  /-- A diff that does not lead to its revision. -/
  | verification (heading : Heading) (revisionId counter : Nat) (detail : String)
deriving DecidableEq, Repr

namespace RecorderError

def message : RecorderError → String
  | settings error => s!"invalid configuration: {error.message}"
  | taskOrder articleId kind part expected =>
    let hint := match expected with
      | some n => s!"expected part {n}"
      | none => "no open article"
    s!"article {articleId}: unexpected {kind.name} task part {part} ({hint})"
  | encode articleId revisionId error =>
    s!"article {articleId}, revision {revisionId}: {error.message}"
  | verification heading revisionId counter detail =>
    s!"diff verification failed for article {heading.articleId} ({heading.articleName}), " ++
      s!"revision counter {counter} (id {revisionId}): {detail}"

def articleId? : RecorderError → Option Nat
  | settings _ => none
  | taskOrder id .. | encode id .. => some id
  | verification heading .. => some heading.articleId

end RecorderError

/-- Counts over all that a recorder has done. They are meant as 64-bit words: a count is what a recorder
tells as long as it stays below `Decimal.wordLimit`. -/
structure Tally where
  revisionsIn : Nat
  diffsOut : Nat
  fullRevisions : Nat
  noopDrops : Nat
  surrogateDrops : Nat
  surrogatesReplaced : Nat
  tasksOut : Nat
  diffBytes : Nat
deriving DecidableEq, Repr

namespace Tally

def zero : Tally := ⟨0, 0, 0, 0, 0, 0, 0, 0⟩

def add (x y : Tally) : Tally :=
  ⟨x.revisionsIn + y.revisionsIn, x.diffsOut + y.diffsOut, x.fullRevisions + y.fullRevisions,
    x.noopDrops + y.noopDrops, x.surrogateDrops + y.surrogateDrops,
    x.surrogatesReplaced + y.surrogatesReplaced, x.tasksOut + y.tasksOut,
    x.diffBytes + y.diffBytes⟩

/-- Counts a stored diff. -/
def countDiff (t : Tally) (d : Diff) : Tally :=
  { t with
    diffsOut := t.diffsOut + 1
    diffBytes := t.diffBytes + Sized.byteSize d
    fullRevisions := t.fullRevisions + d.isFull.toNat }

end Tally

/-- What a recorder tells about its work. -/
inductive Notice where
  | discarded (heading : Heading) (buffered : Nat)
  | dropped (articleId revisionId : Nat)
  | unchanged (articleId revisionId : Nat)
  | stored (articleId revisionId counter edits : Nat) (widths : Widths)
  | emitted (articleId : Nat) (kind : TaskKind) (part diffs bytes : Nat)
  | complete (articleId count : Nat)
  | skipped (part articleId : Nat)
deriving DecidableEq, Repr

inductive Severity where
  | warn
  | info
  | debug
deriving DecidableEq, Repr

namespace Notice

def severity : Notice → Severity
  | discarded .. | dropped .. => .warn
  | emitted .. => .info
  | unchanged .. | stored .. | complete .. | skipped .. => .debug

def message : Notice → String
  | discarded heading buffered =>
    s!"article {heading.articleId} ({heading.articleName}) discarded before its last part " ++
      s!"({buffered} buffered diffs)"
  | dropped articleId revisionId =>
    s!"article {articleId}: dropping revision {revisionId} with unpaired surrogates"
  | unchanged articleId revisionId => s!"article {articleId}: revision {revisionId} is unchanged, dropped"
  | stored articleId revisionId counter edits widths =>
    s!"article {articleId} revision {revisionId} -> counter {counter}: {edits} parts " ++
      s!"({widths.summary})"
  | emitted articleId kind part diffs bytes =>
    s!"article {articleId}: emitting {kind.name} task part {part} ({diffs} diffs, ~{bytes} bytes)"
  | complete articleId count => s!"article {articleId} complete after {count} stored revisions"
  | skipped part articleId => s!"skipping part {part} of failed article {articleId}"

end Notice

/-- The article that is being recorded. -/
structure Article where
  heading : Heading
  /-- The number of diffs stored. -/
  counter : Nat
  /-- The index of the task that comes next: the number of tasks that came in, as a word. -/
  nextPart : Nat
  /-- The text stored last. -/
  previous : Text
  output : Portioner Diff

def Article.start (heading : Heading) (outputLimit : Nat) : Article :=
  ⟨heading, 0, 0, [], Portioner.start heading outputLimit⟩

namespace Recorder

inductive State where
  | idle
  | collecting (article : Article)
  /-- The remaining tasks of the article are skipped. -/
  | failed (heading : Heading)

/-- An article with the counts and notices that go with it, and the tasks that are done. -/
structure Progress where
  article : Article
  tally : Tally
  notices : List Notice
  done : List (Task Diff)

namespace Progress

def notify (p : Progress) (n : Notice) : Progress := { p with notices := p.notices ++ [n] }

/-- Takes over a task that is done, if there is one. -/
def emit (p : Progress) : Option (Task Diff) → Progress
  | none => p
  | some t =>
    { p with
      tally := { p.tally with tasksOut := p.tally.tasksOut + 1 }
      notices := p.notices ++ [.emitted t.heading.articleId t.kind t.part t.items.length t.byteSize]
      done := p.done ++ [t] }

end Progress

/-- The text of a revision to be stored, if the surrogate mode lets it through. -/
def admitText (mode : SurrogateMode) (text : Text) : Option Text :=
  if text.hasUnpaired then
    match mode with
    | .discard => none
    | .replace => some text.replaceUnpaired
  else some text

/-- The patch for the next text of an article: a whole text at every interval. -/
def patchFor (settings : Settings) (article : Article) (text : Text) : Patch :=
  if article.counter % settings.interval = 0 then [.full text]
  else Patch.between settings.minMatch article.previous text

/-- Applies a patch to the text stored last and compares, line endings apart. -/
def verify (article : Article) (patch : Patch) (expected : Text) : Except String Unit :=
  match patch.apply article.previous with
  | .error e => .error e.message
  | .ok text =>
    if text.foldLineEndings = expected.foldLineEndings then .ok ()
    else .error s!"reconstructed {text.length} units, expected {expected.length}"

/-- The diff for a text that is to be stored. -/
def diffFor (settings : Settings) (article : Article) (revision : Revision) (text : Text)
    (patch : Patch) : Except RecorderError Diff := do
  let widths ← (Body.widths settings.codec.charset patch).mapError
    (.encode article.heading.articleId revision.id)
  let counter := article.counter + 1
  if settings.verify then
    (verify article patch text).mapError (.verification article.heading revision.id counter)
  return ⟨counter, revision.id, revision.timestamp, revision.comment, revision.contributor,
    revision.minor, patch, widths⟩

/-- Stores a diff. -/
def store (p : Progress) (text : Text) (diff : Diff) : Progress :=
  let (done, output) := p.article.output.push diff
  let article :=
    { p.article with counter := p.article.counter + 1, previous := text, output := output }
  let notice : Notice := .stored article.heading.articleId diff.revisionId diff.counter
    diff.patch.length diff.widths
  Progress.emit ⟨article, p.tally.countDiff diff, p.notices ++ [notice], p.done⟩ done

/-- Records one revision. An error comes with what was done until then. -/
def record (settings : Settings) (p : Progress) (revision : Revision) :
    Except (Progress × RecorderError) Progress :=
  let p := { p with tally := { p.tally with revisionsIn := p.tally.revisionsIn + 1 } }
  match admitText settings.surrogates revision.text with
  | none =>
    .ok ({ p with tally := { p.tally with surrogateDrops := p.tally.surrogateDrops + 1 } }.notify
      (.dropped p.article.heading.articleId revision.id))
  | some text =>
    let replaced := revision.text.hasUnpaired.toNat
    let p :=
      { p with tally := { p.tally with surrogatesReplaced := p.tally.surrogatesReplaced + replaced } }
    let patch := patchFor settings p.article text
    if patch.isEmpty then
      .ok ({ p with tally := { p.tally with noopDrops := p.tally.noopDrops + 1 } }.notify
        (.unchanged p.article.heading.articleId revision.id))
    else
      match diffFor settings p.article revision text patch with
      | .error e => .error (p, e)
      | .ok diff => .ok (store p text diff)

def recordAll (settings : Settings) (p : Progress) (revisions : List Revision) :
    Except (Progress × RecorderError) Progress :=
  revisions.foldlM (record settings) p

/-- Closes the article of a task that ends it. -/
def conclude (p : Progress) : Progress :=
  (p.emit p.article.output.finish).notify (.complete p.article.heading.articleId p.article.counter)

/-- What a task finds when it comes in. -/
inductive Admission where
  /-- The article goes on, or a new one starts. -/
  | accepted (article : Article) (notices : List Notice)
  /-- The task belongs to a failed article. -/
  | skipped (notice : Notice)
  | rejected (expected : Option Nat)

/-- The notice that unfinished work is dropped. -/
def discardNotice : State → List Notice
  | .collecting article => [.discarded article.heading article.output.items.size]
  | .idle | .failed _ => []

def admission (settings : Settings) (state : State) (task : Task Revision) : Admission :=
  if task.kind.startsArticle then
    if task.part ≠ 0 then .rejected (some 0)
    else .accepted (Article.start task.heading settings.outputLimit) (discardNotice state)
  else
    match state with
    | .collecting article =>
      if article.heading.articleId ≠ task.heading.articleId then .rejected none
      else if task.part ≠ article.nextPart then .rejected (some article.nextPart)
      else .accepted article []
    | .failed heading =>
      if heading.articleId ≠ task.heading.articleId then .rejected none
      else .skipped (.skipped task.part heading.articleId)
    | .idle => .rejected none

end Recorder

/-- A recorder between two tasks. -/
structure Recorder where
  state : Recorder.State
  tally : Tally

namespace Recorder

def start : Recorder := ⟨.idle, .zero⟩

/-- A recorder needs valid settings. -/
def create (settings : Settings) : Except RecorderError Recorder := do
  settings.validate.mapError .settings
  return start

/-- The heading of the article that is being recorded. -/
def currentArticle (r : Recorder) : Option Heading :=
  match r.state with
  | .collecting article => some article.heading
  | .idle | .failed _ => none

def isIdle (r : Recorder) : Bool :=
  match r.state with
  | .idle => true
  | .collecting _ | .failed _ => false

/-- What a recorder answers: its next state, its notices, and the tasks that are done. -/
structure Answer where
  recorder : Recorder
  notices : List Notice
  result : Except RecorderError (List (Task Diff))

/-- Drops unfinished work. -/
def reset (r : Recorder) : Recorder × List Notice := (⟨.idle, r.tally⟩, discardNotice r.state)

/-- Records the revisions of an admitted task, in chronological order. -/
def processAdmitted (settings : Settings) (tally : Tally) (article : Article)
    (notices : List Notice) (task : Task Revision) : Answer :=
  let revisions := task.items.mergeSort Revision.notAfter
  match recordAll settings ⟨article, tally, notices, []⟩ revisions with
  | .error (p, e) =>
    let state : State := if task.kind.endsArticle then .idle else .failed p.article.heading
    ⟨⟨state, p.tally⟩, p.notices, .error e⟩
  | .ok p =>
    let p := { p with article := { p.article with nextPart := Task.partAfter p.article.nextPart } }
    if task.kind.endsArticle then
      let p := conclude p
      ⟨⟨.idle, p.tally⟩, p.notices, .ok p.done⟩
    else ⟨⟨.collecting p.article, p.tally⟩, p.notices, .ok p.done⟩

/-- Processes a task of revisions. -/
def process (settings : Settings) (r : Recorder) (task : Task Revision) : Answer :=
  match admission settings r.state task with
  | .accepted article notices => processAdmitted settings r.tally article notices task
  | .rejected expected =>
    ⟨r, [], .error (.taskOrder task.heading.articleId task.kind task.part expected)⟩
  | .skipped notice =>
    let state : State := if task.kind.endsArticle then .idle else r.state
    ⟨⟨state, r.tally⟩, [notice], .ok []⟩

end Recorder
end EditHistory
