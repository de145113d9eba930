import EditHistory.Proofs.Archive.Calls

/-! What a recorder hands out over all calls. The tasks come in runs, one for each start of an article
that is accepted, and a run is cut short only where the article is given up for another one or where
the recorder is reset. -/
namespace EditHistory

/-! ## Runs of tasks -/

/-- The kinds of the tasks that an article comes in: a full one alone, or a first one with any number
of further ones, and with a last one or not. -/
def TaskKind.IsRun (kinds : List TaskKind) : Prop :=
  kinds = [.full] ∨ ∃ n, kinds = .first :: List.replicate n .middle ∨
    kinds = .first :: (List.replicate n .middle ++ [.last])

/-- Tasks of one article in the order in which they are handed out. They are numbered in words, and their
kinds go by the numbers; the counters of their diffs go on from task to task. -/
structure Task.IsRun (heading : Heading) (tasks : List (Task Diff)) : Prop where
  heading_eq : ∀ task ∈ tasks, task.heading = heading
  map_part : tasks.map Task.part = (List.range tasks.length).map (· % Task.partLimit)
  kinds : tasks.length ≤ Task.partLimit → TaskKind.IsRun (tasks.map Task.kind)
  map_counter : (tasks.flatMap Task.items).map Diff.counter =
    List.range' 1 (tasks.flatMap Task.items).length
  starts_full : ∃ d, (tasks.flatMap Task.items).head? = some d ∧ d.isFull = true

namespace Portioner

variable {heading : Heading} {limit interval : Nat} {vs : List Version} {ds : List Diff}

theorem kinds_pushAll (hne : ((start heading limit).pushAll ds).1 ≠ [])
    (hcount : Task.completed heading limit ds ≤ Task.partLimit) : ∃ n,
    ((start heading limit).pushAll ds).1.map Task.kind = .first :: List.replicate n .middle := by
  obtain ⟨n, hn⟩ := Nat.exists_eq_succ_of_ne_zero (mt List.length_eq_zero_iff.mp hne)
  have hparts := Task.map_part_pushAll_start heading limit ds
  rw [Task.map_range_mod_partLimit hcount, Task.completed, hn] at hparts
  exact ⟨n, by rw [map_kind_pushAll, hparts, TaskKind.map_open_range]⟩

/-- Diffs that store versions from the first one on have counters from one on, and the first of them
is full, however many of them come. -/
theorem counters_of_prefix (hstores : Stores interval 0 [] vs ds) {items : List Diff}
    (hinitial : items <+: ds) (hne : items ≠ []) :
    items.map Diff.counter = List.range' 1 items.length ∧
      ∃ d, items.head? = some d ∧ d.isFull = true := by
  obtain ⟨n, rfl⟩ : ∃ n, items = ds.take n := ⟨_, List.prefix_iff_eq_take.mp hinitial⟩
  have htake := hstores.take n
  refine ⟨by rw [htake.map_counter, ← htake.length_eq], ?_⟩
  have hpos : 0 < (ds.take n).length := List.length_pos_iff.mpr hne
  refine ⟨(ds.take n)[0], by rw [List.head?_eq_getElem?, List.getElem?_eq_getElem hpos], ?_⟩
  rw [htake.isFull_getElem hpos]
  simp

/-- The tasks handed out for an open article are a run. -/
theorem isRun_pushAll (hstores : Stores interval 0 [] vs ds)
    (hne : ((start heading limit).pushAll ds).1 ≠ []) :
    Task.IsRun heading ((start heading limit).pushAll ds).1 := by
  have hitems : ((start heading limit).pushAll ds).1.flatMap Task.items ≠ [] := by
    obtain ⟨task, htask⟩ := List.exists_mem_of_ne_nil _ hne
    rw [Ne, List.flatMap_eq_nil_iff]
    exact fun hnil => items_ne_nil_of_mem_pushAll htask (hnil task htask)
  obtain ⟨hcounters, hfull⟩ :=
    counters_of_prefix hstores ⟨_, flatMap_items_pushAll (start heading limit) ds⟩ hitems
  refine ⟨fun task htask => heading_of_mem_pushAll htask, Task.map_part_pushAll_start heading limit ds,
    fun hcount => ?_, hcounters, hfull⟩
  obtain ⟨n, hkinds⟩ := kinds_pushAll hne hcount
  exact .inr ⟨n, .inl hkinds⟩

/-- The tasks handed out for a concluded article are a run, and unless they come round to part zero its end
is among them. -/
theorem isRun_tasksOf (hstores : Stores interval 0 [] vs ds)
    (hne : (start heading limit).tasksOf ds ≠ []) :
    Task.IsRun heading ((start heading limit).tasksOf ds) ∧
      (((start heading limit).tasksOf ds).length < Task.partLimit →
        ∃ task ∈ (start heading limit).tasksOf ds, task.kind.endsArticle = true) := by
  have hds : ds ≠ [] := by
    rintro rfl
    exact hne rfl
  obtain ⟨hcounters, hfull⟩ := counters_of_prefix hstores (List.prefix_rfl) hds
  have hitems : ((start heading limit).tasksOf ds).flatMap Task.items = ds :=
    flatMap_items_tasksOf (start heading limit) ds
  have hparts := Task.map_part_split heading limit ds
  rw [← hitems] at hcounters hfull
  rw [Task.split, tasksOf_eq] at hparts
  rw [tasksOf_eq] at hne hcounters hfull ⊢
  rcases ((start heading limit).pushAll ds).2.finish_cases with
    ⟨hzero, -, hfinish⟩ | ⟨last, hfinish, hnext, hends⟩
  · rw [hfinish, Option.toList_none, List.append_nil] at hne ⊢
    refine ⟨isRun_pushAll hstores hne, fun hcount => ?_⟩
    exact absurd (Task.pushAll_eq_nil_of_part heading limit ds hcount hzero) hne
  · have hkind := hnext.kind_of_closing hends
    rw [hfinish, Option.toList_some] at hcounters hfull hparts ⊢
    refine ⟨⟨?_, hparts, fun hlength => ?_, hcounters, hfull⟩, fun _ => ⟨last, by simp, hends⟩⟩
    · intro task htask
      rcases List.mem_append.mp htask with htask | htask
      · exact heading_of_mem_pushAll htask
      · rw [List.mem_singleton.mp htask, hnext.heading_eq, heading_pushAll]
        rfl
    · have hcount : Task.completed heading limit ds < Task.partLimit := by
        rwa [List.length_append, List.length_singleton] at hlength
      by_cases hzero : ((start heading limit).pushAll ds).2.part = 0
      · rw [if_pos hzero] at hkind
        exact .inl (by simp [Task.pushAll_eq_nil_of_part heading limit ds hcount hzero, hkind])
      · rw [if_neg hzero] at hkind
        have hsome : ((start heading limit).pushAll ds).1 ≠ [] := by
          intro hnone
          rw [Task.part_pushAll_start, Task.completed, hnone] at hzero
          exact hzero rfl
        obtain ⟨n, hkinds⟩ := kinds_pushAll hsome (Nat.le_of_lt hcount)
        exact .inr ⟨n, .inr (by simp [hkinds, hkind])⟩

end Portioner

/-! ## Exchanges -/

namespace Recorder

/-- A call with the answer to it. -/
structure Exchange where
  call : Call
  answer : Answer

/-- Calls that are made one after another, with the answers. -/
def exchanges (settings : Settings) : Recorder → List Call → List Exchange
  | _, [] => []
  | r, call :: rest =>
    ⟨call, r.answer settings call⟩ :: exchanges settings (r.answer settings call).recorder rest

theorem map_answer_exchanges (settings : Settings) (r : Recorder) (calls : List Call) :
    (r.exchanges settings calls).map Exchange.answer = r.answers settings calls := by
  induction calls generalizing r with
  | nil => rfl
  | cons call calls ih => rw [exchanges, List.map_cons, ih, answers]

namespace Exchange

/-- The heading of the article that is started here: its first task comes in and is accepted. -/
def started? (x : Exchange) : Option Heading :=
  match x.call with
  | .process task =>
    if task.kind.startsArticle && x.answer.error?.isNone then some task.heading else none
  | .reset => none

/-- Does an open article end here in any case? Another one is started or the recorder is reset. -/
def leaves (x : Exchange) : Bool :=
  match x.call with
  | .process _ => x.started?.isSome
  | .reset => true

end Exchange

/-- The tasks that are handed out before an article is left, or until nothing else is asked. -/
def handedOut (log : List Exchange) : List (Task Diff) :=
  (log.takeWhile fun x => !x.leaves).flatMap (·.answer.done)

/-- What comes of the start of an article. -/
structure Run where
  heading : Heading
  /-- What is handed out from the start on. -/
  tasks : List (Task Diff)
  /-- Where the article is left. -/
  left : Option Exchange

/-- What comes of the articles that are started, one after another. -/
def runs : List Exchange → List Run
  | [] => []
  | x :: rest =>
    match x.started? with
    | none => runs rest
    | some heading =>
      ⟨heading, x.answer.done ++ handedOut rest, rest.find? Exchange.leaves⟩ :: runs rest

/-- A run that lacks its end belongs to an article that is given up, which the recorder tells, or that
is still open when nothing else is asked of the recorder `r`. -/
def Run.IsBroken (r : Recorder) (run : Run) : Prop :=
  match run.left with
  | some x => ∃ buffered, Notice.discarded run.heading buffered ∈ x.answer.notices
  | none => r.currentArticle = some run.heading

variable {settings : Settings} {heading : Heading} {article : Article} {task : Task Revision}
  {r : Recorder} {call : Call} {tasks : List (Task Diff)}

/-! ## One call -/

/-- An open article has stored these versions with these diffs since it was started. -/
structure Recorded (settings : Settings) (heading : Heading) (article : Article) (vs : List Version)
    (ds : List Diff) : Prop where
  sound : article.Sound
  stores : Stores settings.interval 0 [] vs ds
  heading_eq : article.heading = heading
  counter_eq : article.counter = vs.length
  previous_eq : article.previous = Version.lastText [] vs
  output_eq : article.output = ((Portioner.start heading settings.outputLimit).pushAll ds).2

theorem recorded_start (settings : Settings) (heading : Heading) :
    Recorded settings heading (Article.start heading settings.outputLimit) [] [] :=
  ⟨sound_start heading settings.outputLimit, .nil, rfl, rfl, rfl, rfl⟩

/-- What has come out for an article since it was started: the recorder has it open, or has concluded
it and waits for the next one. -/
inductive Covers (settings : Settings) (heading : Heading) : State → List (Task Diff) → Prop where
  | collecting {article : Article} {vs : List Version} {ds : List Diff}
      (h : Recorded settings heading article vs ds) :
      Covers settings heading (.collecting article)
        ((Portioner.start heading settings.outputLimit).pushAll ds).1
  | concluded {vs : List Version} {ds : List Diff} (hstores : Stores settings.interval 0 [] vs ds) :
      Covers settings heading .idle ((Portioner.start heading settings.outputLimit).tasksOf ds)

theorem Covers.sound {state : State} (h : Covers settings heading state tasks) : state.Sound := by
  cases h with
  | collecting hrecorded => exact .collecting hrecorded.sound
  | concluded => exact .idle

theorem record_notices {p p' : Progress} {revision : Revision}
    (h : record settings p revision = .ok p') : p.notices ⊆ p'.notices := by
  rcases record_cases h with ⟨-, -, -, notice, -, rfl⟩ | ⟨-, text, diff, -, rfl⟩
  · simp [Progress.notify]
  · cases hpush : (p.article.output.push diff).1 <;> simp [store, hpush, Progress.emit]

/-- Nothing that is told is taken back. -/
theorem recordAll_notices {p p' : Progress} {revisions : List Revision}
    (h : recordAll settings p revisions = .ok p') : p.notices ⊆ p'.notices :=
  foldlM_invariant (fun htold hrecord => List.Subset.trans htold (record_notices hrecord))
    (List.Subset.refl p.notices) h

theorem notices_settle (kind : TaskKind) (p : Progress) : p.notices ⊆ (settle kind p).notices := by
  rw [settle]
  split
  · cases hfinish : p.article.output.finish <;> simp [conclude, hfinish, Progress.emit, Progress.notify]
  · exact List.Subset.refl _

theorem Recorded.advance {p : Progress} {tally : Tally} {notices : List Notice} {vs ws : List Version}
    {ds es : List Diff} (h : Recorded settings heading article vs ds) (hsound : p.article.Sound)
    (hadvances : Advances settings ⟨article, tally, notices, []⟩ ws es p) :
    Recorded settings heading p.article (vs ++ ws) (ds ++ es) where
  sound := hsound
  stores := h.stores.append (by simpa [h.counter_eq, h.previous_eq] using hadvances.stores)
  heading_eq := by rw [hadvances.article_eq, ← h.heading_eq]; rfl
  counter_eq := by simp [hadvances.article_eq, Article.after, h.counter_eq]
  previous_eq := by
    rw [hadvances.article_eq, Version.lastText_append, ← h.previous_eq]
    rfl
  output_eq := by
    rw [hadvances.article_eq, Portioner.pushAll_append, ← h.output_eq]
    rfl

/-- An accepted task adds to what has come out for its article. -/
theorem covers_processAdmitted {vs : List Version} {ds : List Diff}
    (h : Recorded settings heading article vs ds) (htexts : ∀ x ∈ task.items, x.text.IsShort)
    (tally : Tally) (notices : List Notice) :
    let a := processAdmitted settings tally article notices task
    Covers settings heading a.recorder.state
        (((Portioner.start heading settings.outputLimit).pushAll ds).1 ++ a.done) ∧
      a.error? = none ∧ notices ⊆ a.notices := by
  intro a
  obtain ⟨p, es, hrecord, hadvances, hp, ha⟩ :=
    exists_settle settings task tally notices h.sound htexts
  have hnotices : notices ⊆ (settle task.kind p).notices :=
    List.Subset.trans (recordAll_notices hrecord) (notices_settle task.kind p)
  have hnext := h.advance hp hadvances
  have hdone : p.done = (article.output.pushAll es).1 := hadvances.done_eq
  rw [show a = settle task.kind p from ha]
  cases hends : task.kind.endsArticle with
  | true =>
    rw [settle_of_ends hends] at hnotices ⊢
    refine ⟨?_, rfl, hnotices⟩
    have htasks : ((Portioner.start heading settings.outputLimit).pushAll ds).1 ++ (conclude p).done =
        (Portioner.start heading settings.outputLimit).tasksOf (ds ++ es) := by
      rw [Portioner.tasksOf_append, ← h.output_eq, Portioner.tasksOf_eq, done_conclude, hdone,
        hadvances.article_eq]
      rfl
    exact htasks ▸ .concluded hnext.stores
  | false =>
    rw [settle_of_open hends] at hnotices ⊢
    refine ⟨?_, rfl, hnotices⟩
    have htasks : ((Portioner.start heading settings.outputLimit).pushAll ds).1 ++ p.done =
        ((Portioner.start heading settings.outputLimit).pushAll (ds ++ es)).1 := by
      rw [Portioner.pushAll_append, ← h.output_eq, hdone]
    have hrecorded : Recorded settings heading
        { p.article with nextPart := Task.partAfter p.article.nextPart } (vs ++ kept settings article
          (chronological task)) (ds ++ es) :=
      ⟨⟨hp.short, hp.valid, hp.heading_eq⟩, hnext.stores, hnext.heading_eq, hnext.counter_eq,
        hnext.previous_eq, hnext.output_eq⟩
    exact htasks ▸ .collecting hrecorded

/-- A task is refused, or it starts an article, or it continues the one that is open. -/
theorem process_by_kind (hstate : r.state.Sound) (settings : Settings) (task : Task Revision) :
    (∃ expected, r.process settings task =
      ⟨r, [], .error (.taskOrder task.heading.articleId task.kind task.part expected)⟩) ∨
    (task.kind.startsArticle = true ∧ r.process settings task = processAdmitted settings r.tally
      (Article.start task.heading settings.outputLimit) (discardNotice r.state) task) ∨
    (task.kind.startsArticle = false ∧ ∃ article, r.state = .collecting article ∧
      r.process settings task = processAdmitted settings r.tally article [] task) := by
  cases hstarts : task.kind.startsArticle with
  | true =>
    by_cases hpart : task.part = 0
    · exact .inr (.inl ⟨rfl, by simp only [process, admission, hstarts, hpart]; rfl⟩)
    · exact .inl ⟨some 0, by simp [process, admission, hstarts, hpart]⟩
  | false =>
    obtain ⟨state, tally⟩ := r
    cases hstate with
    | idle => exact .inl ⟨none, by simp [process, admission, hstarts]⟩
    | @collecting article _ =>
      by_cases hid : article.heading.articleId = task.heading.articleId
      · by_cases hpart : task.part = article.nextPart
        · exact .inr (.inr ⟨rfl, article, rfl, by simp [process, admission, hstarts, hid, hpart]⟩)
        · exact .inl ⟨some article.nextPart, by simp [process, admission, hstarts, hid, hpart]⟩
      · exact .inl ⟨none, by simp [process, admission, hstarts, hid]⟩

/-- Where no article is left, the recorder refuses a task without a trace or goes on with the article
that is open. -/
theorem stays_cases (hstate : r.state.Sound) (htexts : ∀ x ∈ call.revisions, x.text.IsShort)
    (h : Exchange.leaves ⟨call, r.answer settings call⟩ = false) :
    ((r.answer settings call).recorder = r ∧ (r.answer settings call).done = []) ∨
    ∃ task article, call = .process task ∧ r.state = .collecting article ∧
      r.answer settings call = processAdmitted settings r.tally article [] task := by
  cases call with
  | reset => cases h
  | process task =>
    have hitems : ∀ x ∈ task.items, x.text.IsShort := htexts
    rw [answer] at h ⊢
    rcases process_by_kind hstate settings task with
      ⟨expected, hprocess⟩ | ⟨hstarts, hprocess⟩ | ⟨-, article, hopen, hprocess⟩
    · exact .inl (by rw [hprocess]; exact ⟨rfl, rfl⟩)
    · -- the start of an article is accepted, which leaves the one before
      obtain ⟨-, herror, -⟩ := covers_processAdmitted (recorded_start settings task.heading) hitems
        r.tally (discardNotice r.state)
      rw [hprocess] at h
      simp [Exchange.leaves, Exchange.started?, hstarts, herror] at h
    · exact .inr ⟨task, article, rfl, hopen, hprocess⟩

/-- An article is left where the recorder is reset or starts another one. -/
theorem leaves_cases (hstate : r.state.Sound)
    (h : Exchange.leaves ⟨call, r.answer settings call⟩ = true) :
    call = .reset ∨ ∃ task, call = .process task ∧
      Exchange.started? ⟨call, r.answer settings call⟩ = some task.heading ∧
      r.answer settings call = processAdmitted settings r.tally
        (Article.start task.heading settings.outputLimit) (discardNotice r.state) task := by
  cases call with
  | reset => exact .inl rfl
  | process task =>
    refine .inr ⟨task, rfl, ?_⟩
    simp only [Exchange.leaves, Exchange.started?, answer] at h ⊢
    rcases process_by_kind hstate settings task with
      ⟨expected, hprocess⟩ | ⟨hstarts, hprocess⟩ | ⟨hcontinues, -⟩
    · simp [hprocess, Answer.error?] at h
    · refine ⟨?_, hprocess⟩
      simpa using h
    · simp [hcontinues] at h

theorem covers_of_started (hstate : r.state.Sound) (htexts : ∀ x ∈ call.revisions, x.text.IsShort)
    (h : Exchange.started? ⟨call, r.answer settings call⟩ = some heading) :
    Covers settings heading (r.answer settings call).recorder.state (r.answer settings call).done := by
  cases call with
  | reset => cases h
  | process task =>
    have hleaves : Exchange.leaves ⟨.process task, r.answer settings (.process task)⟩ = true := by
      simp [Exchange.leaves, h]
    rcases leaves_cases hstate hleaves with hreset | ⟨task', htask, hstarted, hanswer⟩
    · cases hreset
    · obtain rfl := Call.process.inj htask
      obtain rfl := Option.some.inj (h.symm.trans hstarted)
      rw [hanswer]
      exact (covers_processAdmitted (recorded_start settings task.heading) htexts _ _).1

/-- The recorder tells that it gives an open article up. -/
theorem discardNotice_subset (hstate : r.state.Sound) (htexts : ∀ x ∈ call.revisions, x.text.IsShort)
    (h : Exchange.leaves ⟨call, r.answer settings call⟩ = true) :
    discardNotice r.state ⊆ (r.answer settings call).notices := by
  rcases leaves_cases hstate h with rfl | ⟨task, rfl, -, hanswer⟩
  · exact List.Subset.refl _
  · rw [hanswer]
    exact (covers_processAdmitted (recorded_start settings task.heading) htexts _ _).2.2

/-- An article that is not left goes on, whatever else is asked. -/
theorem covers_answer (h : Covers settings heading r.state tasks)
    (htexts : ∀ x ∈ call.revisions, x.text.IsShort)
    (hstays : Exchange.leaves ⟨call, r.answer settings call⟩ = false) :
    Covers settings heading (r.answer settings call).recorder.state
      (tasks ++ (r.answer settings call).done) := by
  rcases stays_cases h.sound htexts hstays with ⟨hrecorder, hdone⟩ | ⟨task, article, rfl, hopen, hanswer⟩
  · rwa [hrecorder, hdone, List.append_nil]
  · rw [hopen] at h
    rw [hanswer]
    cases h with
    | collecting hrecorded => exact (covers_processAdmitted hrecorded htexts r.tally []).1

/-- A recorder that waits for an article hands out nothing until one is started. -/
theorem idle_answer (hidle : r.state = .idle) (htexts : ∀ x ∈ call.revisions, x.text.IsShort)
    (hstays : Exchange.leaves ⟨call, r.answer settings call⟩ = false) :
    (r.answer settings call).recorder.state = .idle ∧ (r.answer settings call).done = [] := by
  rcases stays_cases (hidle ▸ .idle) htexts hstays with ⟨hrecorder, hdone⟩ | ⟨_, _, -, hopen, -⟩
  · exact ⟨by rw [hrecorder, hidle], hdone⟩
  · cases hidle.symm.trans hopen

/-! ## All calls -/

theorem handedOut_of_leaves {x : Exchange} (h : x.leaves = true) (log : List Exchange) :
    handedOut (x :: log) = [] := by
  simp [handedOut, h]

theorem handedOut_of_stays {x : Exchange} (h : x.leaves = false) (log : List Exchange) :
    handedOut (x :: log) = x.answer.done ++ handedOut log := by
  simp [handedOut, h]

theorem handedOut_of_idle {calls : List Call} (hidle : r.state = .idle)
    (htexts : ∀ call ∈ calls, ∀ x ∈ call.revisions, x.text.IsShort) :
    handedOut (r.exchanges settings calls) = [] := by
  induction calls generalizing r with
  | nil => rfl
  | cons call calls ih =>
    rw [exchanges]
    cases hleaves : Exchange.leaves ⟨call, r.answer settings call⟩ with
    | true => exact handedOut_of_leaves hleaves _
    | false =>
      obtain ⟨hnext, hdone⟩ := idle_answer hidle (htexts call (by simp)) hleaves
      rw [handedOut_of_stays hleaves, hdone, ih hnext fun c hc => htexts c (by simp [hc])]
      rfl

/-- What comes of an open article until it is left, and the recorder that leaves it. -/
theorem exists_covers (h : Covers settings heading r.state tasks) {calls : List Call}
    (htexts : ∀ call ∈ calls, ∀ x ∈ call.revisions, x.text.IsShort) :
    ∃ r' : Recorder, Covers settings heading r'.state
        (tasks ++ handedOut (r.exchanges settings calls)) ∧
      match (r.exchanges settings calls).find? Exchange.leaves with
      | some x => ∃ call ∈ calls, x = ⟨call, r'.answer settings call⟩
      | none => r.after settings calls = r' := by
  induction calls generalizing r tasks with
  | nil => exact ⟨r, by simpa [exchanges, handedOut] using h, rfl⟩
  | cons call calls ih =>
    rw [exchanges]
    cases hleaves : Exchange.leaves ⟨call, r.answer settings call⟩ with
    | true =>
      rw [handedOut_of_leaves hleaves, List.append_nil, List.find?_cons_of_pos hleaves]
      exact ⟨r, h, by simp⟩
    | false =>
      have hnext := covers_answer h (htexts call (by simp)) hleaves
      obtain ⟨r', hcovers, hend⟩ := ih hnext fun c hc => htexts c (by simp [hc])
      rw [handedOut_of_stays hleaves, ← List.append_assoc,
        List.find?_cons_of_neg (ne_true_of_eq_false hleaves)]
      refine ⟨r', hcovers, ?_⟩
      split at hend
      · obtain ⟨call', hmem, hx⟩ := hend
        exact ⟨call', List.mem_cons_of_mem _ hmem, hx⟩
      · exact hend

/-- Nothing is handed out but for the articles that are started. -/
theorem flatMap_done_exchanges (hstate : r.state.Sound) {calls : List Call}
    (htexts : ∀ call ∈ calls, ∀ x ∈ call.revisions, x.text.IsShort) :
    (r.exchanges settings calls).flatMap (·.answer.done) = handedOut (r.exchanges settings calls) ++
      (runs (r.exchanges settings calls)).flatMap Run.tasks := by
  induction calls generalizing r with
  | nil => rfl
  | cons call calls ih =>
    have hfirst : ∀ x ∈ call.revisions, x.text.IsShort := htexts call (by simp)
    have hrest : ∀ c ∈ calls, ∀ x ∈ c.revisions, x.text.IsShort := fun c hc => htexts c (by simp [hc])
    rw [exchanges, List.flatMap_cons, ih (sound_answer hstate hfirst).state hrest]
    cases hleaves : Exchange.leaves ⟨call, r.answer settings call⟩ with
    | false =>
      have hstarted : Exchange.started? ⟨call, r.answer settings call⟩ = none := by
        cases call with
        | reset => rfl
        | process task => simpa [Exchange.leaves] using hleaves
      rw [handedOut_of_stays hleaves, runs, hstarted, List.append_assoc]
    | true =>
      rw [handedOut_of_leaves hleaves, List.nil_append, runs]
      rcases leaves_cases hstate hleaves with rfl | ⟨task, rfl, hstarted, -⟩
      · rw [handedOut_of_idle rfl hrest]
        rfl
      · rw [hstarted, List.flatMap_cons, List.append_assoc]

/-- What has come out for an article is a run, and unless its end is among it the article is open, or the
tasks have come round to part zero. -/
theorem Covers.isRun {state : State} (h : Covers settings heading state tasks) (hne : tasks ≠ []) :
    Task.IsRun heading tasks ∧ (tasks.length < Task.partLimit →
      (∀ task ∈ tasks, task.kind.endsArticle = false) →
        ∃ article, state = .collecting article ∧ article.heading = heading) := by
  cases h with
  | @collecting article _ _ hrecorded =>
    exact ⟨Portioner.isRun_pushAll hrecorded.stores hne,
      fun _ _ => ⟨article, rfl, hrecorded.heading_eq⟩⟩
  | concluded hstores =>
    obtain ⟨hrun, hend⟩ := Portioner.isRun_tasksOf hstores hne
    refine ⟨hrun, fun hcount hopen => ?_⟩
    obtain ⟨last, hlast, hends⟩ := hend hcount
    exact absurd hends (ne_true_of_eq_false (hopen last hlast))

/-- A started article leads to a run, which is broken off only where the article is given up. -/
theorem isRun_of_mem_runs (hstate : r.state.Sound) {calls : List Call}
    (htexts : ∀ call ∈ calls, ∀ x ∈ call.revisions, x.text.IsShort) {run : Run}
    (h : run ∈ runs (r.exchanges settings calls)) (hne : run.tasks ≠ []) :
    Task.IsRun run.heading run.tasks ∧ (run.tasks.length < Task.partLimit →
      (∀ task ∈ run.tasks, task.kind.endsArticle = false) →
        run.IsBroken (r.after settings calls)) := by
  induction calls generalizing r with
  | nil => cases h
  | cons call calls ih =>
    have hfirst : ∀ x ∈ call.revisions, x.text.IsShort := htexts call (by simp)
    have hrest : ∀ c ∈ calls, ∀ x ∈ c.revisions, x.text.IsShort := fun c hc => htexts c (by simp [hc])
    have hnext : (r.answer settings call).recorder.state.Sound := (sound_answer hstate hfirst).state
    rw [exchanges, runs] at h
    split at h
    · exact ih hnext hrest h
    · rename_i heading hstarted
      rcases List.mem_cons.mp h with rfl | h
      · obtain ⟨r', hcovers, hend⟩ := exists_covers (covers_of_started hstate hfirst hstarted) hrest
        obtain ⟨hrun, hopen⟩ := hcovers.isRun hne
        refine ⟨hrun, fun hcount hkinds => ?_⟩
        obtain ⟨article, hcollecting, rfl⟩ := hopen hcount hkinds
        simp only [Run.IsBroken, after]
        split at hend
        · rename_i hleft
          obtain ⟨call', hmem, rfl⟩ := hend
          have htold := discardNotice_subset hcovers.sound (hrest call' hmem) (List.find?_some hleft)
          rw [hcollecting] at htold
          exact ⟨_, htold (List.mem_singleton_self _)⟩
        · rw [hend, currentArticle, hcollecting]
      · exact ih hnext hrest h

/-- What a recorder hands out is a sequence of runs, whatever it is asked and however often it is
refused or reset. There is one run for each start of an article that is accepted and leads to
anything. It has the heading of its start, its tasks are numbered in words and their diffs are numbered
through from a full one on. As long as the words do not come round, its kinds are those of one article,
and it is broken off only where the article is discarded or still open. -/
theorem answers_eq_runs {settings : Settings} {r : Recorder} (hcreate : create settings = .ok r)
    (calls : List Call) (htexts : ∀ call ∈ calls, ∀ x ∈ call.revisions, 3 * x.text.length < 1 <<< 31) :
    (r.answers settings calls).flatMap Answer.done =
        (runs (r.exchanges settings calls)).flatMap Run.tasks ∧
      ∀ run ∈ runs (r.exchanges settings calls), run.tasks ≠ [] →
        Task.IsRun run.heading run.tasks ∧ (run.tasks.length < Task.partLimit →
          (∀ task ∈ run.tasks, task.kind.endsArticle = false) →
            run.IsBroken (r.after settings calls)) := by
  obtain ⟨-, rfl⟩ := eq_start_of_create hcreate
  have hshort : ∀ call ∈ calls, ∀ x ∈ call.revisions, x.text.IsShort :=
    fun call hcall x hx => Text.isShort_of_lt (htexts call hcall x hx)
  constructor
  · rw [← map_answer_exchanges, List.flatMap_map, flatMap_done_exchanges .idle hshort,
      handedOut_of_idle rfl hshort, List.nil_append]
  · exact fun run hrun hne => isRun_of_mem_runs .idle hshort hrun hne

/-- One article is given up for another, a task that comes too late is refused, and a third article
is left open. -/
theorem answers_eq_runs_discarding :
    let settings : Settings := { Settings.default with outputLimit := 1 }
    let calls : List Call :=
      [.process ⟨⟨7, "Lean"⟩, 0, .first, [⟨0, 11, ⟨5, 0⟩, [0x61], "", .anonymous "::1", false⟩], 0⟩,
        .process ⟨⟨8, "Diff"⟩, 0, .full, [⟨0, 12, ⟨6, 0⟩, [0x62], "", .anonymous "::1", false⟩], 0⟩,
        .process ⟨⟨7, "Lean"⟩, 1, .last, [⟨1, 13, ⟨7, 0⟩, [0x63], "", .anonymous "::1", false⟩], 0⟩,
        .process ⟨⟨9, "Rust"⟩, 0, .first, [⟨0, 14, ⟨8, 0⟩, [0x64], "", .anonymous "::1", false⟩], 0⟩]
    let found := runs (start.exchanges settings calls)
    found.map (fun run => (run.heading.articleId, run.tasks.map Task.kind)) =
        [(7, [.first]), (8, [.first, .last]), (9, [.first])] ∧
      (start.answers settings calls).flatMap Answer.done = found.flatMap Run.tasks ∧
      ∀ run ∈ found, run.tasks ≠ [] →
        Task.IsRun run.heading run.tasks ∧ (run.tasks.length < Task.partLimit →
          (∀ task ∈ run.tasks, task.kind.endsArticle = false) →
            run.IsBroken (start.after settings calls)) := by
  intro settings calls found
  exact ⟨by decide +kernel, answers_eq_runs rfl calls (by decide)⟩

end Recorder
end EditHistory
