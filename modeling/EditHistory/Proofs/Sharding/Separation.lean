import EditHistory.Proofs.Archive.Calls
import EditHistory.Proofs.Archive.Resume

/-! What a recorder makes of a task depends on little of what it did before: on the article that the
task goes on with, if that one is open. So the tasks of some articles lead to the same when the tasks
of all others are left out, as long as the tasks of an article come together. -/
namespace EditHistory

namespace Recorder

variable {settings : Settings} {state : State} {task : Task Revision} {id n : Nat}

/-! ## A task on its own -/

/-- The answer to a task of a recorder that has counted nothing yet and knows of no other article. -/
def isolated (settings : Settings) (state : State) (task : Task Revision) : Answer :=
  process settings ⟨state.view task.heading.articleId, 0⟩ task

/-- The state after a task. A task that is refused leaves no trace. -/
def next (settings : Settings) (state : State) (task : Task Revision) : State :=
  match (isolated settings state task).result with
  | .ok _ => (isolated settings state task).recorder.state
  | .error _ => state

/-- Progress on an article in which no more than some number of tasks are done, all of them tasks of
the article. -/
structure Progress.Confined (id n : Nat) (p : Progress) : Prop where
  articleId_eq : p.article.heading.articleId = id
  output_eq : p.article.output.heading.articleId = id
  done_eq : ∀ t ∈ p.done, t.heading.articleId = id
  length_le : p.done.length ≤ n

theorem Progress.Confined.conclude {p : Progress} (h : p.Confined id n) :
    (∀ t ∈ (conclude p).done, t.heading.articleId = id) ∧ (conclude p).done.length ≤ n + 1 := by
  rw [done_conclude]
  constructor
  · intro t ht
    rcases List.mem_append.mp ht with ht | ht
    · exact h.done_eq t ht
    · rw [Portioner.heading_of_mem_finish ht, h.output_eq]
  · rw [List.length_append]
    exact Nat.add_le_add h.length_le Option.length_toList_le

theorem length_kept_le (settings : Settings) (article : Article) (revisions : List Revision) :
    (kept settings article revisions).length ≤ revisions.length := by
  refine (Version.select_sublist ..).length_le.trans ?_
  cases hmode : settings.surrogates with
  | discard =>
    rw [Version.admitted, List.length_map]
    exact List.length_filter_le ..
  | replace =>
    rw [Version.admitted, List.length_map]

theorem confined_of_advances {article : Article} {tally : Tally} {notices : List Notice}
    {revisions : List Revision} {p : Progress} {ds : List Diff} (hsound : article.Sound)
    (h : Advances settings ⟨article, tally, notices, []⟩ (kept settings article revisions) ds p) :
    p.Confined article.heading.articleId revisions.length := by
  have hdone : p.done = (article.output.pushAll ds).1 := h.done_eq
  have harticle : p.article = article.after (kept settings article revisions) ds := h.article_eq
  refine ⟨?_, ?_, ?_, ?_⟩
  · rw [harticle]
    rfl
  · rw [harticle, Article.after, Portioner.heading_pushAll, hsound.heading_eq]
  · intro t ht
    rw [hdone] at ht
    rw [Portioner.heading_of_mem_pushAll ht, hsound.heading_eq]
  · calc p.done.length ≤ ds.length := hdone ▸ Portioner.length_pushAll_le _ _
      _ = (kept settings article revisions).length := h.stores.length_eq
      _ ≤ revisions.length := length_kept_le ..

/-- What a task leads to once it is admitted, or it is refused. The rest of what the recorder has
done makes no difference. -/
theorem isolated_cases {r : Recorder} (hstate : r.state.Sound) (settings : Settings)
    (htexts : ∀ x ∈ task.items, x.text.IsShort) :
    (∃ p p', isolated settings r.state task = settle task.kind p ∧
      r.process settings task = settle task.kind p' ∧ p.Resumes p.article.nextPart r.tally [] p' ∧
      p.Confined task.heading.articleId task.items.length) ∨
    ∃ expected, (isolated settings r.state task).result =
        .error (.taskOrder task.heading.articleId task.kind task.part expected) ∧
      (isolated settings r.state task).recorder.tally = 0 ∧
      r.process settings task =
        ⟨r, [], .error (.taskOrder task.heading.articleId task.kind task.part expected)⟩ := by
  rcases admission_cases hstate settings task with
    ⟨article, notices, notices', hadmit, hadmit', hsound, hid⟩ | ⟨expected, hadmit, hadmit'⟩
  · obtain ⟨p, ds, hrecord, hadvances, -, hsettle⟩ :=
      exists_settle settings task 0 notices' hsound htexts
    have hresumes : Progress.Resumes article.nextPart r.tally [] ⟨article, 0, notices', []⟩
        ⟨article, r.tally, notices, []⟩ := ⟨rfl, (add_zero _).symm, rfl⟩
    obtain ⟨p', hp', hresumes'⟩ := hresumes.recordAll hrecord
    have hnext : p.article.nextPart = article.nextPart := by
      rw [hadvances.article_eq]
      rfl
    have hconfined : p.Confined article.heading.articleId (chronological task).length :=
      confined_of_advances hsound hadvances
    rw [hid, chronological, List.length_mergeSort] at hconfined
    refine .inl ⟨p, p', ?_, ?_, hnext ▸ hresumes', hconfined⟩
    · rw [isolated, process, hadmit']
      exact hsettle
    · rw [process, hadmit]
      exact processAdmitted_eq hp'
  · refine .inr ⟨expected, ?_, ?_, ?_⟩
    · rw [isolated, process, hadmit']
    · rw [isolated, process, hadmit']
    · rw [process, hadmit]

/-- Whatever else a recorder has done, a task leads to the same and adds the same to the counts. -/
theorem process_eq_isolated {r : Recorder} (hstate : r.state.Sound) (settings : Settings)
    (htexts : ∀ x ∈ task.items, x.text.IsShort) :
    (r.process settings task).result = (isolated settings r.state task).result ∧
      (r.process settings task).recorder.state = next settings r.state task ∧
      (r.process settings task).recorder.tally =
        r.tally + (isolated settings r.state task).recorder.tally := by
  rcases isolated_cases hstate settings htexts with
    ⟨p, p', hisolated, hprocess, hresumes, -⟩ | ⟨expected, hresult, htally, hprocess⟩
  · obtain ⟨hresult, hnext, htally⟩ := settle_of_resumes hresumes task.kind
    obtain ⟨done, hdone⟩ := exists_result_settle task.kind p
    refine ⟨?_, ?_, ?_⟩
    · rw [hprocess, hisolated, hresult]
    · simp only [next, hprocess, hisolated, hdone, hnext]
    · rw [hprocess, hisolated, htally]
  · refine ⟨?_, ?_, ?_⟩
    · rw [hprocess, hresult]
    · simp only [next, hresult, hprocess]
    · rw [hprocess, htally, add_zero]

/-- What comes out of a task: tasks of its article, at most one for each revision and one more, or
an error that names the article. -/
theorem result_cases (hstate : state.Sound) (settings : Settings)
    (htexts : ∀ x ∈ task.items, x.text.IsShort) :
    (∃ done, (isolated settings state task).result = .ok done ∧
      (∀ t ∈ done, t.heading.articleId = task.heading.articleId) ∧
      done.length ≤ task.items.length + 1) ∨
    ∃ kind part expected, (isolated settings state task).result =
      .error (.taskOrder task.heading.articleId kind part expected) := by
  rcases isolated_cases (r := ⟨state, 0⟩) hstate settings htexts with
    ⟨p, -, hisolated, -, -, hconfined⟩ | ⟨expected, hresult, -, -⟩
  · obtain ⟨hheading, hlength⟩ := hconfined.conclude
    rw [hisolated]
    cases hends : task.kind.endsArticle with
    | true =>
      rw [settle_of_ends hends]
      exact .inl ⟨_, rfl, hheading, hlength⟩
    | false =>
      rw [settle_of_open hends]
      exact .inl ⟨_, rfl, hconfined.done_eq, Nat.le_succ_of_le hconfined.length_le⟩
  · exact .inr ⟨_, _, _, hresult⟩

/-- Behind a task its article is open or none is, if the task is not refused. -/
theorem openId?_next (hstate : state.Sound) (settings : Settings)
    (htexts : ∀ x ∈ task.items, x.text.IsShort) :
    (next settings state task).openId? = none ∨
      (next settings state task).openId? = some task.heading.articleId ∨
      next settings state task = state := by
  rcases isolated_cases (r := ⟨state, 0⟩) hstate settings htexts with
    ⟨p, -, hisolated, -, -, hconfined⟩ | ⟨expected, hresult, -, -⟩
  · obtain ⟨done, hdone⟩ := exists_result_settle task.kind p
    simp only [next, hisolated, hdone]
    cases hends : task.kind.endsArticle with
    | true =>
      rw [settle_of_ends hends]
      exact .inl rfl
    | false =>
      rw [settle_of_open hends]
      exact .inr (.inl (congrArg some hconfined.articleId_eq))
  · exact .inr (.inr (by simp only [next, hresult]))

theorem sound_next (hstate : state.Sound) (settings : Settings)
    (htexts : ∀ x ∈ task.items, x.text.IsShort) : (next settings state task).Sound := by
  have hanswer : (answer settings ⟨state, 0⟩ (.process task)).Sound := sound_answer hstate htexts
  rw [← (process_eq_isolated (r := ⟨state, 0⟩) hstate settings htexts).2.1]
  exact hanswer.state

/-! ## Tasks one after another -/

/-- Tasks with what they lead to, each on its own. -/
def effects (settings : Settings) : State → List (Task Revision) → List (Task Revision × Answer)
  | _, [] => []
  | state, task :: rest =>
    (task, isolated settings state task) :: effects settings (next settings state task) rest

/-- The answers to tasks are told by what the tasks lead to on their own. -/
theorem answers_eq_effects {r : Recorder} {tasks : List (Task Revision)} (settings : Settings)
    (hstate : r.state.Sound) (htexts : ∀ task ∈ tasks, ∀ x ∈ task.items, x.text.IsShort) :
    (r.answers settings (tasks.map .process)).flatMap Answer.done =
        (effects settings r.state tasks).flatMap (·.2.done) ∧
      (r.answers settings (tasks.map .process)).filterMap Answer.error? =
        (effects settings r.state tasks).filterMap (·.2.error?) ∧
      (r.after settings (tasks.map .process)).tally =
        r.tally + ((effects settings r.state tasks).map (·.2.recorder.tally)).sum := by
  induction tasks generalizing r with
  | nil => exact ⟨rfl, rfl, (add_zero _).symm⟩
  | cons task tasks ih =>
    have hfirst := htexts task (by simp)
    obtain ⟨hresult, hnext, htally⟩ := process_eq_isolated hstate settings hfirst
    obtain ⟨hdone, herrors, htotal⟩ := ih (r := (r.process settings task).recorder)
      (hnext ▸ sound_next hstate settings hfirst) fun t ht => htexts t (by simp [ht])
    rw [hnext] at hdone herrors htotal
    refine ⟨?_, ?_, ?_⟩
    · simp only [List.map_cons, answers, effects, List.flatMap_cons, answer, hdone]
      rw [Answer.done, Answer.done, hresult]
    · simp only [List.map_cons, answers, effects, List.filterMap_cons, answer, herrors]
      rw [Answer.error?, Answer.error?, hresult]
    · simp only [List.map_cons, after, effects, List.sum_cons, answer]
      rw [htotal, htally, add_assoc]

/-! ## One recorder for all tasks -/

/-- A new recorder after some tasks. -/
def recorded (settings : Settings) (tasks : List (Task Revision)) : Recorder :=
  start.after settings (tasks.map .process)

/-- The tasks that a new recorder finishes. -/
def finished (settings : Settings) (tasks : List (Task Revision)) : List (Task Diff) :=
  (start.answers settings (tasks.map .process)).flatMap Answer.done

/-- The errors that a new recorder answers with. -/
def refused (settings : Settings) (tasks : List (Task Revision)) : List RecorderError :=
  (start.answers settings (tasks.map .process)).filterMap Answer.error?

theorem recorded_append_singleton (tasks : List (Task Revision)) (task : Task Revision) :
    recorded settings (tasks ++ [task]) = ((recorded settings tasks).process settings task).recorder := by
  rw [recorded, List.map_append, after_append]
  rfl

theorem finished_append_singleton (tasks : List (Task Revision)) (task : Task Revision) :
    finished settings (tasks ++ [task]) =
      finished settings tasks ++ ((recorded settings tasks).process settings task).done := by
  rw [finished, List.map_append, answers_append, List.flatMap_append]
  exact congrArg (_ ++ ·) (List.append_nil _)

theorem refused_append_singleton (tasks : List (Task Revision)) (task : Task Revision) :
    refused settings (tasks ++ [task]) =
      refused settings tasks ++ ((recorded settings tasks).process settings task).error?.toList := by
  rw [refused, List.map_append, answers_append, List.filterMap_append]
  refine congrArg (_ ++ ·) ?_
  change [(recorded settings tasks).process settings task].filterMap Answer.error? = _
  cases h : ((recorded settings tasks).process settings task).error? <;> simp [h]

theorem sound_recorded {tasks : List (Task Revision)} (settings : Settings)
    (htexts : ∀ task ∈ tasks, ∀ x ∈ task.items, x.text.IsShort) :
    (recorded settings tasks).state.Sound := by
  refine sound_state_after .idle fun call hcall => ?_
  obtain ⟨task, htask, rfl⟩ := List.mem_map.mp hcall
  exact htexts task htask

/-- What a new recorder makes of tasks is told by what the tasks lead to on their own. -/
theorem recorded_eq_effects {tasks : List (Task Revision)} (settings : Settings)
    (htexts : ∀ task ∈ tasks, ∀ x ∈ task.items, x.text.IsShort) :
    finished settings tasks = (effects settings .idle tasks).flatMap (·.2.done) ∧
      refused settings tasks = (effects settings .idle tasks).filterMap (·.2.error?) ∧
      (recorded settings tasks).tally = ((effects settings .idle tasks).map (·.2.recorder.tally)).sum := by
  obtain ⟨hdone, herrors, htally⟩ := answers_eq_effects (r := start) settings .idle htexts
  exact ⟨hdone, herrors, htally.trans (zero_add _)⟩

/-! ## Tasks without the tasks of other articles -/

/-- No article comes back once another one has come. -/
def Contiguous (ids : List Nat) : Prop := ∀ x y, [x, y, x].Sublist ids → y = x

theorem Contiguous.of_sublist {ids ids' : List Nat} (h : Contiguous ids) (hsub : ids'.Sublist ids) :
    Contiguous ids' :=
  fun x y hxy => h x y (hxy.trans hsub)

theorem view_of_openId? (h : state.openId? ≠ some id) : state.view id = .idle := if_neg h

/-- What is said of the tasks to come and the article that is open still holds behind a task. -/
theorem Contiguous.next {tasks : List (Task Revision)} (settings : Settings) (hstate : state.Sound)
    (h : Contiguous (state.openId?.toList ++ (task :: tasks).map fun t => t.heading.articleId))
    (htexts : ∀ x ∈ task.items, x.text.IsShort) :
    Contiguous ((next settings state task).openId?.toList ++
      tasks.map fun t => t.heading.articleId) := by
  rcases openId?_next hstate settings htexts with hnone | hsome | hsame
  · rw [hnone]
    exact h.of_sublist ((List.sublist_cons_self ..).trans (List.sublist_append_right ..))
  · rw [hsome]
    exact h.of_sublist (List.sublist_append_right ..)
  · rw [hsame]
    exact h.of_sublist ((List.Sublist.refl _).append (List.sublist_cons_self ..))

theorem isolated_congr {other : State} (settings : Settings)
    (htask : state.view task.heading.articleId = other.view task.heading.articleId) :
    isolated settings other task = isolated settings state task := by
  rw [isolated, isolated, htask]

/-- Where two recorders know the same of the article of a task, they do so behind it, and what they
know the same of any other article stays the same. -/
theorem view_next_congr {other : State}
    (htask : state.view task.heading.articleId = other.view task.heading.articleId)
    (hview : state.view id = other.view id) :
    (Recorder.next settings state task).view id = (Recorder.next settings other task).view id := by
  simp only [Recorder.next, isolated_congr settings htask]
  split
  · rfl
  · exact hview

/-- A task of another article tells nothing of an article that is not open. -/
theorem view_next_of_ne (hstate : state.Sound) (settings : Settings)
    (htexts : ∀ x ∈ task.items, x.text.IsShort) (hne : task.heading.articleId ≠ id)
    (hclosed : state.openId? ≠ some id) :
    (Recorder.next settings state task).view id = state.view id := by
  rcases openId?_next hstate settings htexts with hnone | hsome | hsame
  · rw [view_of_openId? hclosed, view_of_openId? (by simp [hnone])]
  · rw [view_of_openId? hclosed, view_of_openId? (by simpa [hsome] using hne)]
  · rw [hsame]

/-- Some articles are recorded as if there were no others. What two recorders know of articles that
are still to come is the same: neither has such an article open that others have left behind. -/
theorem effects_filter {other : State} {tasks : List (Task Revision)} (keep : Nat → Bool)
    (hstate : state.Sound)
    (hcontiguous : Contiguous (state.openId?.toList ++ tasks.map fun t => t.heading.articleId))
    (hview : ∀ t ∈ tasks, keep t.heading.articleId →
      state.view t.heading.articleId = other.view t.heading.articleId)
    (htexts : ∀ task ∈ tasks, ∀ x ∈ task.items, x.text.IsShort) :
    effects settings other (tasks.filter fun t => keep t.heading.articleId) =
      (effects settings state tasks).filter fun e => keep e.1.heading.articleId := by
  induction tasks generalizing state other with
  | nil => rfl
  | cons task tasks ih =>
    have hfirst := htexts task (by simp)
    have hsound := sound_next hstate settings hfirst
    have hrest : ∀ t ∈ tasks, ∀ x ∈ t.items, x.text.IsShort := fun t ht => htexts t (by simp [ht])
    have hcontiguous' := hcontiguous.next settings hstate hfirst
    by_cases hkeep : keep task.heading.articleId = true
    · have htask := hview task (by simp) hkeep
      rw [List.filter_cons_of_pos (by exact hkeep), effects, effects,
        List.filter_cons_of_pos (by exact hkeep), isolated_congr settings htask]
      congr 1
      refine ih hsound hcontiguous' (fun t ht hkeep' => ?_) hrest
      exact view_next_congr htask (hview t (by simp [ht]) hkeep')
    · rw [List.filter_cons_of_neg (by exact hkeep), effects, List.filter_cons_of_neg (by exact hkeep)]
      refine ih hsound hcontiguous' (fun t ht hkeep' => ?_) hrest
      have hne : task.heading.articleId ≠ t.heading.articleId := fun heq => hkeep (heq ▸ hkeep')
      -- an article that is open, left for this task and still to come would come back
      have hclosed : state.openId? ≠ some t.heading.articleId := by
        intro hsome
        refine hne (hcontiguous t.heading.articleId task.heading.articleId ?_)
        rw [hsome]
        exact .cons_cons _ (.cons_cons _ (List.singleton_sublist.mpr (List.mem_map_of_mem ht)))
      rw [view_next_of_ne hstate settings hfirst hne hclosed, hview t (by simp [ht]) hkeep']

end Recorder
end EditHistory
