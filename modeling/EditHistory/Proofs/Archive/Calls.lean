import EditHistory.Proofs.Archive.Recorder

/-! Calls to a recorder, in any order and with tasks of any article. Whatever was asked of it before,
a recorder has a valid text to compare the next revision with, so that it can write and verify the
diff for every revision; all it ever refuses is a task that does not continue its article. -/
namespace EditHistory

open Version

theorem Version.not_hasUnpaired_of_mem_admitted {mode : SurrogateMode} {revisions : List Revision}
    {v : Version} (h : v ∈ admitted mode revisions) : v.text.hasUnpaired = false := by
  cases mode with
  | discard =>
    obtain ⟨r, hr, rfl⟩ := List.mem_map.mp h
    simpa using (List.mem_filter.mp hr).2
  | replace =>
    obtain ⟨r, -, rfl⟩ := List.mem_map.mp h
    exact Text.hasUnpaired_replaceUnpaired r.text

/-- What holds of an article between two tasks: the text stored last is short enough and well
formed, and tasks go out under the heading of the article. -/
structure Article.Sound (article : Article) : Prop where
  short : article.previous.IsShort
  valid : article.previous.hasUnpaired = false
  heading_eq : article.output.heading = article.heading

namespace Recorder

variable {settings : Settings} {article : Article} {task : Task Revision}

theorem sound_start (heading : Heading) (limit : Nat) : (Article.start heading limit).Sound :=
  ⟨Nat.zero_le _, rfl, rfl⟩

theorem sound_after (hsound : article.Sound) {revisions : List Revision} (ds : List Diff)
    (htexts : ∀ x ∈ revisions, x.text.IsShort) :
    (article.after (kept settings article revisions) ds).Sound where
  short := isShort_previous_after ds hsound.short htexts
  valid := by
    refine lastText_mem (P := fun t => t.hasUnpaired = false) hsound.valid fun v hv => ?_
    exact not_hasUnpaired_of_mem_admitted ((select_sublist ..).subset hv)
  heading_eq := (Portioner.heading_pushAll _ _).trans hsound.heading_eq

/-- The revisions of a task, in chronological order. -/
def chronological (task : Task Revision) : List Revision := task.items.mergeSort Revision.notAfter

/-- An admitted task is recorded to its end. -/
theorem exists_settle (settings : Settings) (task : Task Revision) (tally : Tally)
    (notices : List Notice) (hsound : article.Sound) (htexts : ∀ x ∈ task.items, x.text.IsShort) :
    ∃ p ds, recordAll settings ⟨article, tally, notices, []⟩ (chronological task) = .ok p ∧
      Advances settings ⟨article, tally, notices, []⟩ (kept settings article (chronological task)) ds p ∧
      p.article.Sound ∧
      processAdmitted settings tally article notices task = settle task.kind p := by
  have hsorted : ∀ x ∈ chronological task, x.text.IsShort :=
    fun x hx => htexts x (List.mem_mergeSort.mp hx)
  obtain ⟨p, ds, hrecord, hadvances⟩ :=
    exists_recordAll settings (p := ⟨article, tally, notices, []⟩) hsound.short hsorted
  refine ⟨p, ds, hrecord, hadvances, ?_, processAdmitted_eq hrecord⟩
  rw [hadvances.article_eq]
  exact sound_after hsound ds hsorted

/-- No article has failed, and an open one is sound. -/
inductive State.Sound : State → Prop where
  | idle : Sound .idle
  | collecting {article : Article} (h : article.Sound) : Sound (.collecting article)

theorem sound_settle {p : Progress} (h : p.article.Sound) (kind : TaskKind) :
    (settle kind p).recorder.state.Sound := by
  rw [settle]
  split
  · exact .idle
  · exact .collecting ⟨h.short, h.valid, h.heading_eq⟩

theorem exists_result_settle (kind : TaskKind) (p : Progress) :
    ∃ done, (settle kind p).result = .ok done := by
  rw [settle]
  split <;> exact ⟨_, rfl⟩

/-- The article that is open in a state. -/
def State.openId? : State → Option Nat
  | .collecting article => some article.heading.articleId
  | .idle | .failed _ => none

/-- What a state tells about an article. -/
def State.view (id : Nat) (state : State) : State := if state.openId? = some id then state else .idle

/-- In a sound state a task is admitted to an article of its own, which is sound, or it is out of
order; and it finds the same whether or not another article is open, but for what is told about it. -/
theorem admission_cases {state : State} (hstate : state.Sound) (settings : Settings)
    (task : Task Revision) :
    (∃ article notices notices', admission settings state task = .accepted article notices ∧
      admission settings (state.view task.heading.articleId) task = .accepted article notices' ∧
      article.Sound ∧ article.heading.articleId = task.heading.articleId) ∨
    ∃ expected, admission settings state task = .rejected expected ∧
      admission settings (state.view task.heading.articleId) task = .rejected expected := by
  by_cases hstarts : task.kind.startsArticle = true
  · by_cases hpart : task.part = 0
    · refine .inl ⟨Article.start task.heading settings.outputLimit, discardNotice state,
        discardNotice (state.view task.heading.articleId), ?_, ?_, sound_start _ _, rfl⟩
      · simp [admission, hstarts, hpart]
      · simp [admission, hstarts, hpart]
    · exact .inr ⟨some 0, by simp [admission, hstarts, hpart], by simp [admission, hstarts, hpart]⟩
  · cases hstate with
    | idle => exact .inr ⟨none, by simp [admission, hstarts], by simp [admission, hstarts, State.view]⟩
    | @collecting article harticle =>
      by_cases hid : article.heading.articleId = task.heading.articleId
      · have hview : (State.collecting article).view task.heading.articleId = .collecting article :=
          if_pos (congrArg some hid)
        rw [hview]
        by_cases hpart : task.part = article.nextPart
        · refine .inl ⟨article, [], [], ?_, ?_, harticle, hid⟩
          · simp [admission, hstarts, hid, hpart]
          · simp [admission, hstarts, hid, hpart]
        · refine .inr ⟨some article.nextPart, ?_, ?_⟩
          · simp [admission, hstarts, hid, hpart]
          · simp [admission, hstarts, hid, hpart]
      · have hview : (State.collecting article).view task.heading.articleId = .idle :=
          if_neg (by simpa [State.openId?] using hid)
        rw [hview]
        exact .inr ⟨none, by simp [admission, hstarts, hid], by simp [admission, hstarts]⟩

/-- A task is admitted to a new article or to the one that is open. -/
theorem admission_accepted_cases {state : State} {notices : List Notice}
    (h : admission settings state task = .accepted article notices) :
    (task.kind.startsArticle = true ∧ article = Article.start task.heading settings.outputLimit) ∨
      (task.kind.startsArticle = false ∧ state = .collecting article) := by
  rw [admission.eq_def] at h
  split at h
  · rename_i hkind
    split at h
    · cases h
    · exact .inl ⟨hkind, (Admission.accepted.inj h).1.symm⟩
  · rename_i hkind
    have hlater : task.kind.startsArticle = false := by simpa using hkind
    split at h
    · split at h
      · cases h
      · split at h
        · cases h
        · exact .inr ⟨hlater, congrArg State.collecting (Admission.accepted.inj h).1⟩
    · split at h <;> cases h
    · cases h

/-- While an article is open no task is passed over. -/
theorem admission_ne_skipped {state : State} {notice : Notice} (h : state = .collecting article) :
    admission settings state task ≠ .skipped notice := by
  rw [h, admission.eq_def]
  split <;> split
  · exact nofun
  · exact nofun
  · split
    · exact nofun
    · split <;> exact nofun
  · rename_i hfailed
    cases hfailed
  · rename_i hidle
    cases hidle

/-- A task is recorded, or refused without a trace. -/
theorem process_cases {r : Recorder} (hstate : r.state.Sound) (settings : Settings)
    (htexts : ∀ x ∈ task.items, x.text.IsShort) :
    (∃ p, r.process settings task = settle task.kind p ∧ p.article.Sound) ∨
    ∃ expected, r.process settings task =
      ⟨r, [], .error (.taskOrder task.heading.articleId task.kind task.part expected)⟩ := by
  rcases admission_cases hstate settings task with
    ⟨article, notices, -, hadmit, -, hsound, -⟩ | ⟨expected, hadmit, -⟩
  · obtain ⟨p, ds, -, -, hp, hsettle⟩ := exists_settle settings task r.tally notices hsound htexts
    exact .inl ⟨p, by simp only [process, hadmit, hsettle], hp⟩
  · exact .inr ⟨expected, by simp only [process, hadmit]⟩

/-! ## Runs -/

/-- A recorder is created idle, under settings that are valid. -/
theorem eq_start_of_create {r : Recorder} (h : create settings = .ok r) :
    settings.validate = .ok () ∧ r = start := by
  rw [create] at h
  obtain ⟨u, hvalid, h⟩ := bind_eq_ok.mp h
  exact ⟨mapError_eq_ok.mp hvalid, (Except.ok.inj h).symm⟩

/-- What can be asked of a recorder. -/
inductive Call where
  | process (task : Task Revision)
  | reset

/-- The revisions that a call brings in. -/
def Call.revisions : Call → List Revision
  | .process task => task.items
  | .reset => []

/-- The answer to a call. -/
def answer (settings : Settings) (r : Recorder) : Call → Answer
  | .process task => r.process settings task
  | .reset => ⟨r.reset.1, r.reset.2, .ok []⟩

/-- The answers to calls that are made one after another. -/
def answers (settings : Settings) : Recorder → List Call → List Answer
  | _, [] => []
  | r, call :: rest =>
    r.answer settings call :: answers settings (r.answer settings call).recorder rest

/-- The recorder after some calls. -/
def after (settings : Settings) : Recorder → List Call → Recorder
  | r, [] => r
  | r, call :: rest => after settings (r.answer settings call).recorder rest

theorem after_append (r : Recorder) (calls calls' : List Call) :
    r.after settings (calls ++ calls') = (r.after settings calls).after settings calls' := by
  induction calls generalizing r with
  | nil => rfl
  | cons call calls ih => exact ih (r.answer settings call).recorder

theorem answers_append (r : Recorder) (calls calls' : List Call) :
    r.answers settings (calls ++ calls') =
      r.answers settings calls ++ (r.after settings calls).answers settings calls' := by
  induction calls generalizing r with
  | nil => rfl
  | cons call calls ih =>
    simp only [List.cons_append, answers, after, ih]

theorem length_answers (settings : Settings) (r : Recorder) (calls : List Call) :
    (r.answers settings calls).length = calls.length := by
  induction calls generalizing r with
  | nil => rfl
  | cons call calls ih => simp [answers, ih]

/-- The finished tasks of an answer. -/
def Answer.done (a : Answer) : List (Task Diff) :=
  match a.result with
  | .ok done => done
  | .error _ => []

/-- The error of an answer. -/
def Answer.error? (a : Answer) : Option RecorderError :=
  match a.result with
  | .ok _ => none
  | .error e => some e

/-- No call fails but for the order of tasks, and the state stays sound. -/
structure Answer.Sound (answer : Answer) : Prop where
  state : answer.recorder.state.Sound
  result : (∃ done, answer.result = .ok done) ∨
    ∃ articleId kind part expected, answer.result = .error (.taskOrder articleId kind part expected)

theorem sound_answer {r : Recorder} (hstate : r.state.Sound) {call : Call}
    (htexts : ∀ x ∈ call.revisions, x.text.IsShort) : (r.answer settings call).Sound := by
  cases call with
  | reset => exact ⟨.idle, .inl ⟨[], rfl⟩⟩
  | process task =>
    rcases process_cases hstate settings htexts with ⟨p, hprocess, hp⟩ | ⟨expected, hprocess⟩
    · rw [answer, hprocess]
      exact ⟨sound_settle hp task.kind, .inl (exists_result_settle task.kind p)⟩
    · rw [answer, hprocess]
      exact ⟨hstate, .inr ⟨_, _, _, _, rfl⟩⟩

theorem sound_state_after {r : Recorder} (hstate : r.state.Sound) {calls : List Call}
    (htexts : ∀ call ∈ calls, ∀ x ∈ call.revisions, x.text.IsShort) :
    (r.after settings calls).state.Sound := by
  induction calls generalizing r with
  | nil => exact hstate
  | cons call calls ih =>
    have hfirst : (r.answer settings call).Sound := sound_answer hstate (htexts call (by simp))
    exact ih hfirst.state fun c hc => htexts c (by simp [hc])

theorem sound_of_mem_answers {r : Recorder} (hstate : r.state.Sound) {calls : List Call}
    (htexts : ∀ call ∈ calls, ∀ x ∈ call.revisions, x.text.IsShort) {a : Answer}
    (h : a ∈ r.answers settings calls) : a.Sound := by
  induction calls generalizing r with
  | nil => simp [answers] at h
  | cons call calls ih =>
    have hfirst : (r.answer settings call).Sound := sound_answer hstate (htexts call (by simp))
    rcases List.mem_cons.mp h with rfl | h
    · exact hfirst
    · exact ih hfirst.state (fun c hc => htexts c (by simp [hc])) h

/-- Whatever a recorder is asked, it never fails on its own work: it answers each call with finished
tasks or finds a task out of order, no article fails, and the text stored last in an open article
has no unpaired surrogate. -/
theorem answers_never_fail {settings : Settings} {r : Recorder} (hcreate : create settings = .ok r)
    (calls : List Call) (htexts : ∀ call ∈ calls, ∀ x ∈ call.revisions, 3 * x.text.length < 1 <<< 31) :
    ∀ a ∈ r.answers settings calls,
      ((∃ done, a.result = .ok done) ∨
        ∃ articleId kind part expected, a.result = .error (.taskOrder articleId kind part expected)) ∧
      (∀ heading, a.recorder.state ≠ .failed heading) ∧
      ∀ article, a.recorder.state = .collecting article → article.previous.hasUnpaired = false := by
  obtain ⟨-, rfl⟩ := eq_start_of_create hcreate
  intro a ha
  obtain ⟨hstate, hresult⟩ := sound_of_mem_answers .idle
    (fun call hcall x hx => Text.isShort_of_lt (htexts call hcall x hx)) ha
  refine ⟨hresult, ?_, ?_⟩
  · intro heading hfailed
    rw [hfailed] at hstate
    cases hstate
  · intro article hcollecting
    rw [hcollecting] at hstate
    cases hstate with
    | collecting h => exact h.valid

/-- An article with lone surrogates is left open, a part that comes too early is refused, and the
recorder is reset. -/
theorem answers_never_fail_replacing :
    create { Settings.default with surrogates := .replace } = .ok start ∧
    ∀ a ∈ start.answers { Settings.default with surrogates := .replace }
        [.process ⟨⟨7, "Lean"⟩, 0, .first, [⟨0, 11, ⟨5, 0⟩, [0xDE00, 0xD83D], "", .anonymous "::1", false⟩], 0⟩,
          .process ⟨⟨7, "Lean"⟩, 2, .last, [⟨1, 12, ⟨6, 0⟩, [0xD83D, 0x61], "", .anonymous "::1", false⟩], 0⟩,
          .process ⟨⟨7, "Lean"⟩, 1, .middle, [⟨1, 12, ⟨6, 0⟩, [0xD83D, 0x61], "", .anonymous "::1", false⟩], 0⟩,
          .reset],
      ((∃ done, a.result = .ok done) ∨
        ∃ articleId kind part expected, a.result = .error (.taskOrder articleId kind part expected)) ∧
      (∀ heading, a.recorder.state ≠ .failed heading) ∧
      ∀ article, a.recorder.state = .collecting article → article.previous.hasUnpaired = false :=
  ⟨rfl, answers_never_fail rfl _ (by decide)⟩

end Recorder
end EditHistory
