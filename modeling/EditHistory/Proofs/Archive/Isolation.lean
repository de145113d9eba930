import EditHistory.Proofs.Archive.Measured
import EditHistory.Proofs.Archive.Resume

/-! A task that starts an article wipes out everything but the counts. From there on a recorder that
has other work behind it, half finished or failed, answers like a new one. So it makes no difference
whether articles are recorded one after another or each by a recorder of its own. -/
namespace EditHistory

namespace Recorder

variable {settings : Settings} {tally : Tally} {r r' : Recorder}

/-! ## Two recorders in one state -/

/-- What a recorder has counted before shows in none of its answers. -/
theorem Resumes.answer (h : r.Resumes tally r') (settings : Settings) (call : Call) :
    (r.answer settings call).Resumes tally (r'.answer settings call) := by
  obtain ⟨state, u⟩ := r
  obtain ⟨state', u'⟩ := r'
  obtain ⟨hstate, htally⟩ := h
  dsimp only at hstate htally
  subst hstate htally
  cases call with
  | reset => exact ⟨rfl, rfl, rfl⟩
  | process task =>
    simp only [Recorder.answer, process]
    cases admission settings state' task with
    | accepted article notices => exact resumes_processAdmitted settings tally u article _ _ task
    | skipped notice => exact ⟨rfl, rfl, rfl⟩
    | rejected expected => exact ⟨rfl, rfl, rfl⟩

/-- Calls lead to the same, one by one and in the end. -/
theorem Resumes.answers (h : r.Resumes tally r') (settings : Settings) (calls : List Call) :
    (r'.answers settings calls).map Answer.result = (r.answers settings calls).map Answer.result ∧
      (r.after settings calls).Resumes tally (r'.after settings calls) := by
  induction calls generalizing r r' with
  | nil => exact ⟨rfl, h⟩
  | cons call calls ih =>
    have hfirst := h.answer settings call
    obtain ⟨hresults, hafter⟩ := ih hfirst.recorder
    refine ⟨?_, hafter⟩
    simp only [Recorder.answers, List.map_cons, hfirst.result_eq, hresults]

/-! ## Articles that start anew -/

/-- The first of the tasks starts an article. -/
def StartsAnew (tasks : List (Task Revision)) : Prop :=
  ∃ first rest, tasks = first :: rest ∧ first.kind.startsArticle = true ∧ first.part = 0

/-- Behind a task that starts an article only the counts tell of the work before it. -/
theorem resumes_process_of_start (settings : Settings) {task : Task Revision}
    (hkind : task.kind.startsArticle = true) (hpart : task.part = 0) (r : Recorder) :
    (start.process settings task).Resumes r.tally (r.process settings task) := by
  have hadmission (state : State) : admission settings state task =
      .accepted (Article.start task.heading settings.outputLimit) (discardNotice state) := by
    simp [admission, hkind, hpart]
  have hresumes := resumes_processAdmitted settings r.tally 0
    (Article.start task.heading settings.outputLimit) (discardNotice start.state)
    (discardNotice r.state) task
  rw [add_zero] at hresumes
  simp only [process, hadmission]
  exact hresumes

/-- Whatever a recorder has behind it, it answers to tasks that start anew like a new one. -/
theorem resumes_of_startsAnew (settings : Settings) {tasks : List (Task Revision)}
    (h : StartsAnew tasks) (r : Recorder) :
    (r.answers settings (tasks.map .process)).map Answer.result =
        (start.answers settings (tasks.map .process)).map Answer.result ∧
      (start.after settings (tasks.map .process)).Resumes r.tally
        (r.after settings (tasks.map .process)) := by
  obtain ⟨first, rest, rfl, hkind, hpart⟩ := h
  have hfirst := resumes_process_of_start settings hkind hpart r
  obtain ⟨hresults, hafter⟩ := hfirst.recorder.answers settings (rest.map .process)
  refine ⟨?_, hafter⟩
  simp only [List.map_cons, answers, answer, hfirst.result_eq, hresults]

/-! ## One recorder for all articles -/

theorem done_eq_of_results {as bs : List Answer}
    (h : as.map Answer.result = bs.map Answer.result) :
    as.flatMap Answer.done = bs.flatMap Answer.done ∧ as.map Answer.error? = bs.map Answer.error? := by
  induction as generalizing bs with
  | nil => simp_all
  | cons a as ih =>
    cases bs with
    | nil => simp at h
    | cons b bs =>
      obtain ⟨hfirst, hrest⟩ := List.cons.inj h
      obtain ⟨hdone, herrors⟩ := ih hrest
      simp only [List.flatMap_cons, List.map_cons, hdone, herrors, Answer.done, Answer.error?, hfirst,
        and_self]

/-- Tasks that lead to something are all answered, and what they lead to is handed out in the
answers. -/
theorem answers_of_go {tasks : List (Task Revision)} {done : List (Task Diff)}
    (h : Sharding.recordArticle.go settings r tasks = .ok done) :
    (r.answers settings (tasks.map .process)).flatMap Answer.done = done ∧
      ∀ a ∈ r.answers settings (tasks.map .process), a.error? = none := by
  induction tasks generalizing r done with
  | nil =>
    obtain rfl := Except.ok.inj h
    exact ⟨rfl, by simp [answers]⟩
  | cons task tasks ih =>
    obtain ⟨first, others, hresult, hrest, rfl⟩ := exists_of_go_cons h
    obtain ⟨hdone, herrors⟩ := ih hrest
    simp only [List.map_cons, answers, answer, List.flatMap_cons, hdone, List.forall_mem_cons]
    exact ⟨by simp [Answer.done, hresult], by simp [Answer.error?, hresult], herrors⟩

/-- Where every article can be recorded on its own, one recorder answers to all of them one after
another with the same tasks, in a group of answers for each article. -/
theorem exists_groups {articles : List (List (Task Revision))} {outs : List (List (Task Diff))}
    (hvalid : settings.validate = .ok ()) (hstarts : ∀ tasks ∈ articles, StartsAnew tasks)
    (h : Sharding.recordArticles settings articles = outs.map .ok) (r : Recorder) :
    ∃ groups : List (List Answer),
      groups.flatten = r.answers settings (articles.flatten.map .process) ∧
      groups.map List.length = articles.map List.length ∧
      groups.map (·.flatMap Answer.done) = outs ∧ ∀ group ∈ groups, ∀ a ∈ group, a.error? = none := by
  induction articles generalizing outs r with
  | nil =>
    have hnil : outs = [] := by simpa [Sharding.recordArticles] using h.symm
    exact ⟨[], rfl, rfl, hnil.symm, by simp⟩
  | cons tasks articles ih =>
    cases outs with
    | nil => simp [Sharding.recordArticles] at h
    | cons out outs =>
      obtain ⟨hfirst, hrest⟩ := List.cons.inj h
      obtain ⟨hstart, hstarts⟩ := List.forall_mem_cons.mp hstarts
      have hgo : Sharding.recordArticle.go settings start tasks = .ok out := by
        rw [Sharding.recordArticle, create, hvalid] at hfirst
        exact hfirst
      obtain ⟨hdone, herrors⟩ := answers_of_go hgo
      obtain ⟨hdone', herrors'⟩ := done_eq_of_results (resumes_of_startsAnew settings hstart r).1
      obtain ⟨groups, hflatten, hlengths, houts, hnone⟩ :=
        ih hstarts hrest (r.after settings (tasks.map .process))
      refine ⟨r.answers settings (tasks.map .process) :: groups, ?_, ?_, ?_, ?_⟩
      · rw [List.flatten_cons, hflatten, List.flatten_cons, List.map_append, answers_append]
      · simp [hlengths, length_answers]
      · simp [houts, hdone', hdone]
      · refine List.forall_mem_cons.mpr ⟨fun a ha => ?_, hnone⟩
        have hmem : a.error? ∈ (start.answers settings (tasks.map .process)).map Answer.error? :=
          herrors' ▸ List.mem_map_of_mem ha
        obtain ⟨b, hb, heq⟩ := List.mem_map.mp hmem
        rw [← heq, herrors b hb]

/-- Articles are isolated. Whatever a recorder was asked before, tasks that start anew lead it to the
same results as a new one, errors included, to the same state, and to the same increase of all counts.
So where every article of a list can be recorded by a recorder of its own, one recorder for all tasks
refuses none of them and hands out the same for each article. -/
theorem answers_isolated {r₀ : Recorder} (hcreate : create settings = .ok r₀) :
    (∀ (calls : List Call) (tasks : List (Task Revision)), StartsAnew tasks →
      let r := r₀.after settings calls
      let work := tasks.map Call.process
      (r.answers settings work).map Answer.result = (r₀.answers settings work).map Answer.result ∧
        (r.after settings work).state = (r₀.after settings work).state ∧
        ∃ increase, (r.after settings work).tally = r.tally + increase ∧
          (r₀.after settings work).tally = r₀.tally + increase) ∧
    ∀ (articles : List (List (Task Revision))) (outs : List (List (Task Diff))),
      (∀ tasks ∈ articles, StartsAnew tasks) →
      Sharding.recordArticles settings articles = outs.map .ok →
      ∃ groups : List (List Answer),
        groups.flatten = r₀.answers settings (articles.flatten.map .process) ∧
        groups.map List.length = articles.map List.length ∧
        groups.map (·.flatMap Answer.done) = outs ∧
        ∀ group ∈ groups, ∀ a ∈ group, a.error? = none := by
  obtain ⟨hvalid, rfl⟩ := eq_start_of_create hcreate
  constructor
  · intro calls tasks hstart r work
    obtain ⟨hresults, hafter⟩ := resumes_of_startsAnew settings hstart r
    exact ⟨hresults, hafter.state_eq, (start.after settings work).tally, hafter.tally_eq,
      (zero_add _).symm⟩
  · intro articles outs hstarts hrecord
    exact exists_groups hvalid hstarts hrecord start

/-- The article that is still open is started again, and a task in it is refused; and one recorder for
two articles, the first of them in two tasks. -/
theorem answers_isolated_reopened :
    let old : Revision := ⟨0, 11, ⟨5, 0⟩, [0x61], "", .anonymous "::1", false⟩
    let new : Revision := ⟨1, 12, ⟨6, 0⟩, [0x62], "", .anonymous "::1", false⟩
    let first : Task Revision := ⟨⟨7, "Lean"⟩, 0, .first, [old], 0⟩
    let late : Task Revision := ⟨⟨7, "Lean"⟩, 2, .last, [new], 0⟩
    let last : Task Revision := ⟨⟨7, "Lean"⟩, 1, .last, [], 0⟩
    let other : Task Revision := ⟨⟨8, "Diff"⟩, 0, .full, [new], 0⟩
    let r := start.after .default [.process first]
    let work := [first, late, last].map Call.process
    StartsAnew [first, late, last] ∧ r.currentArticle = some ⟨7, "Lean"⟩ ∧
      (r.answers .default work).map Answer.result = (start.answers .default work).map Answer.result ∧
      (r.after .default work).state = (start.after .default work).state ∧
      ∃ outs, Sharding.recordArticles .default [[first, last], [other]] = outs.map .ok ∧
        ∃ groups : List (List Answer),
          groups.flatten = start.answers .default ([first, last, other].map .process) ∧
          groups.map (·.flatMap Answer.done) = outs := by
  intro old new first late last other r work
  have hcreate : create .default = .ok start := rfl
  have hstart : StartsAnew [first, late, last] := ⟨first, [late, last], rfl, rfl, rfl⟩
  obtain ⟨hleft, htogether⟩ := answers_isolated hcreate
  obtain ⟨hresults, hstate, -⟩ := hleft [.process first] [first, late, last] hstart
  have hrecord : Sharding.recordArticles .default [[first, last], [other]] =
      [[⟨⟨7, "Lean"⟩, 0, .full, [⟨1, 11, ⟨5, 0⟩, "", .anonymous "::1", false, [.full [0x61]],
        ⟨0, 0, 0, 1⟩⟩], 65⟩],
      [⟨⟨8, "Diff"⟩, 0, .full, [⟨1, 12, ⟨6, 0⟩, "", .anonymous "::1", false, [.full [0x62]],
        ⟨0, 0, 0, 1⟩⟩], 65⟩]].map .ok := by decide +kernel
  obtain ⟨groups, hflatten, -, houts, -⟩ := htogether [[first, last], [other]] _
    (by simp [StartsAnew, first, last, other, TaskKind.startsArticle]) hrecord
  exact ⟨hstart, by decide +kernel, hresults, hstate, _, hrecord, groups, hflatten, houts⟩

end Recorder
end EditHistory
