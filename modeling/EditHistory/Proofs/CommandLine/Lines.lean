import EditHistory.CommandLine.History
import EditHistory.Proofs.Archive.Measured
import EditHistory.Proofs.Report.Json
import EditHistory.Proofs.Text.Utf8
import EditHistory.Proofs.Transport.TextForm

/-! The lines of a history file. A recording writes one line for every diff that is handed out, and the
line tells all that it takes to apply the diff. The lines are told by the bytes of the file. -/
namespace EditHistory

theorem TaskKind.name_inj {k k' : TaskKind} (h : k.name = k'.name) : k = k' := by
  cases k <;> cases k' <;> first | rfl | exact absurd h (by decide)

/-- Objects that are the same have the same members. -/
theorem Json.mem_of_object_eq {members members' : List (String × Json)}
    (h : object members = object members') :
    ∀ m ∈ members, m ∈ members' := by
  intro m hm
  have hsorted := Json.obj.inj h
  rw [← List.mem_mergeSort, hsorted, List.mem_mergeSort] at hm
  exact hm

namespace CommandLine

/-! ## Bytes as lines -/

theorem widthsJson_inj {w w' : Widths} (h : widthsJson w = widthsJson w') : w = w' := by
  have hfields : w.start = w'.start ∧ w.length = w'.length ∧ w.block = w'.block ∧ w.text = w'.text := by
    simpa using Json.mem_of_object_eq h
  obtain ⟨hstart, hlength, hblock, htext⟩ := hfields
  cases w
  exact (Widths.mk.injEq ..).mpr ⟨hstart, hlength, hblock, htext⟩

theorem HistoryLine.json_inj {l l' : HistoryLine} (h : l.json = l'.json) : l = l' := by
  have hmembers : l.articleId = l'.articleId ∧ l.part = l'.part ∧ l.kind.name = l'.kind.name ∧
      l.counter = l'.counter ∧ l.revisionId = l'.revisionId ∧ l.isFull = l'.isFull ∧
      l.edits = l'.edits ∧ widthsJson l.widths = widthsJson l'.widths ∧
      String.ofList l.payload = String.ofList l'.payload := by
    simpa using Json.mem_of_object_eq h
  obtain ⟨harticle, hpart, hkind, hcounter, hid, hfull, hedits, hwidths, hpayload⟩ := hmembers
  cases l
  exact (HistoryLine.mk.injEq ..).mpr ⟨harticle, hpart, TaskKind.name_inj hkind, hcounter, hid, hfull,
    hedits, widthsJson_inj hwidths, String.ofList_inj.mp hpayload⟩

/-- The characters of lines. -/
theorem flatMap_written_eq (lines : List HistoryLine) : lines.flatMap HistoryLine.written =
    Utf8.ofChars (lines.flatMap fun l => l.json.compact ++ ['\n']) := by
  rw [Utf8.ofChars, List.flatMap_assoc]
  refine List.flatMap_congr fun l _ => ?_
  rw [HistoryLine.written, Utf8.ofString, Json.line, String.toList_append, String.toList_ofList]
  rfl

/-- The bytes of lines are those of no other lines. -/
theorem flatMap_written_inj {lines lines' : List HistoryLine}
    (h : lines.flatMap HistoryLine.written = lines'.flatMap HistoryLine.written) : lines = lines' := by
  rw [flatMap_written_eq, flatMap_written_eq] at h
  replace h := Utf8.ofChars_inj h
  induction lines generalizing lines' with
  | nil =>
    cases lines' with
    | nil => rfl
    | cons l' lines' => simp at h
  | cons l lines ih =>
    cases lines' with
    | nil => simp at h
    | cons l' lines' =>
      simp only [List.flatMap_cons, List.append_assoc, List.cons_append, List.nil_append] at h
      obtain ⟨hjson, hrest⟩ := Json.compact_append_inj l.json l'.json (by simp [Json.NoDigit])
        (by simp [Json.NoDigit]) h
      rw [HistoryLine.json_inj hjson, ih (List.cons.inj hrest).2]

/-! ## Recorded diffs as lines -/

variable [Compressor] {codec : Codec} {settings : Settings} {r : Recording} {ds : List Diff}

/-- A line that is written for a diff that can be written. -/
structure HistoryLine.IsFor (codec : Codec) (l : HistoryLine) (d : Diff) : Prop where
  measured : d.IsMeasured codec.charset
  written : ∃ task, HistoryLine.ofDiff codec task d = .ok l

/-- A line tells what a diff stores, and its payload leads back to the patch. -/
structure HistoryLine.Tells (codec : Codec) (l : HistoryLine) (d : Diff) : Prop where
  counter_eq : l.counter = d.counter
  revisionId_eq : l.revisionId = d.revisionId
  edits_eq : l.edits = d.patch.length
  decodeText_eq : codec.decodeText l.payload = .ok (l.widths, d.patch)

/-- A diff that can be written has a line. -/
theorem exists_line {d : Diff} (h : d.IsMeasured codec.charset) (task : Task Diff) :
    ∃ l, HistoryLine.ofDiff codec task d = .ok l := by
  obtain ⟨es, hprepare⟩ := h.exists_prepare
  obtain ⟨b, tail, hencode, -⟩ := Body.exists_body hprepare
  rw [HistoryLine.ofDiff, Codec.encodeText_of_encode hencode]
  exact ⟨_, rfl⟩

theorem HistoryLine.IsFor.tells (hpack : Compressor.IsFaithful) {l : HistoryLine} {d : Diff}
    (h : l.IsFor codec d) : l.Tells codec d := by
  obtain ⟨hmeasured, task, hwritten⟩ := h
  obtain ⟨es, hprepare⟩ := hmeasured.exists_prepare
  obtain ⟨payload, hencode, hdecode⟩ := Codec.exists_encodeText hpack hprepare
  rw [ofDiff, hencode] at hwritten
  obtain rfl := Except.ok.inj hwritten
  exact ⟨rfl, rfl, rfl, hdecode⟩

/-- The lines for the diffs of a task are written one after another. -/
theorem addLines_eq (task : Task Diff) (r : Recording) (h : ∀ d ∈ ds, d.IsMeasured codec.charset) :
    ∃ lines, Recording.addLines codec task r ds = .ok { r with lines := r.lines ++ lines } ∧
      List.Forall₂ (HistoryLine.IsFor codec) lines ds := by
  induction ds generalizing r with
  | nil => exact ⟨[], by rw [List.append_nil]; rfl, .nil⟩
  | cons d ds ih =>
    obtain ⟨hd, hds⟩ := List.forall_mem_cons.mp h
    obtain ⟨l, hline⟩ := exists_line hd task
    obtain ⟨lines, hadd, hlines⟩ := ih { r with lines := r.lines ++ [l] } hds
    refine ⟨l :: lines, ?_, .cons ⟨hd, task, hline⟩ hlines⟩
    rw [Recording.addLines, hline]
    dsimp only
    rw [hadd, List.append_assoc]
    rfl

/-- The diffs of all finished tasks are written down. -/
theorem addTasks_eq {done : List (Task Diff)} (r : Recording)
    (h : ∀ task ∈ done, ∀ d ∈ task.items, d.IsMeasured codec.charset) :
    ∃ lines, done.foldlM (fun r t => Recording.addLines codec t r t.items) r =
        .ok { r with lines := r.lines ++ lines } ∧
      List.Forall₂ (HistoryLine.IsFor codec) lines (done.flatMap Task.items) := by
  induction done generalizing r with
  | nil => exact ⟨[], by rw [List.append_nil]; rfl, .nil⟩
  | cons task done ih =>
    obtain ⟨htask, hdone⟩ := List.forall_mem_cons.mp h
    obtain ⟨first, hadd, hfirst⟩ := addLines_eq task r htask
    obtain ⟨others, hrest, hothers⟩ := ih { r with lines := r.lines ++ first } hdone
    refine ⟨first ++ others, ?_, List.rel_append hfirst hothers⟩
    rw [List.foldlM_cons, hadd, ← List.append_assoc]
    exact hrest

/-- A task that is recorded adds its diffs to the lines and to what is replayed. -/
theorem step_eq {task : Task Revision} {done : List (Task Diff)}
    (hresult : (r.recorder.process settings task).result = .ok done)
    (h : ∀ task ∈ done, ∀ d ∈ task.items, d.IsMeasured settings.codec.charset) :
    ∃ lines, Recording.step settings r task = .ok ⟨(r.recorder.process settings task).recorder,
        r.lines ++ lines, r.stored ++ done.flatMap Task.items⟩ ∧
      List.Forall₂ (HistoryLine.IsFor settings.codec) lines (done.flatMap Task.items) := by
  obtain ⟨lines, hadd, hlines⟩ := addTasks_eq
    { r with recorder := (r.recorder.process settings task).recorder } h
  refine ⟨lines, ?_, hlines⟩
  simp only [Recording.step, hresult, hadd, bind, Except.bind]
  rfl

/-- Where a recorder records tasks without a failure, a recording has a line for each diff that comes
out of it. -/
theorem exists_foldlM_step {tasks : List (Task Revision)} {done : List (Task Diff)}
    (hgo : Sharding.recordArticle.go settings r.recorder tasks = .ok done)
    (h : ∀ task ∈ done, ∀ d ∈ task.items, d.IsMeasured settings.codec.charset) :
    ∃ recorder lines, tasks.foldlM (Recording.step settings) r =
        .ok ⟨recorder, r.lines ++ lines, r.stored ++ done.flatMap Task.items⟩ ∧
      List.Forall₂ (HistoryLine.IsFor settings.codec) lines (done.flatMap Task.items) := by
  induction tasks generalizing r done with
  | nil =>
    obtain rfl := Except.ok.inj hgo
    refine ⟨r.recorder, [], ?_, .nil⟩
    simp only [List.append_nil, List.flatMap_nil]
    rfl
  | cons task tasks ih =>
    obtain ⟨first, others, hresult, hrest, rfl⟩ := Recorder.exists_of_go_cons hgo
    obtain ⟨hdone, hothers⟩ := List.forall_mem_append.mp h
    obtain ⟨lines, hstep, hlines⟩ := step_eq hresult hdone
    obtain ⟨recorder, lines', hmore, hlines'⟩ := ih (r := ⟨_, r.lines ++ lines, _⟩) hrest hothers
    refine ⟨recorder, lines ++ lines', ?_, List.flatMap_append ▸ List.rel_append hlines hlines'⟩
    rw [List.foldlM_cons, hstep, List.flatMap_append, ← List.append_assoc, ← List.append_assoc]
    exact hmore

end CommandLine
end EditHistory
