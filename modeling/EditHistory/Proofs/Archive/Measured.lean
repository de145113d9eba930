import EditHistory.Proofs.Archive.Calls
import EditHistory.Sharding.Network

/-! The widths that a recorder notes down with a diff are those that the patch of the diff is written
with, so that whatever it hands out can be written. -/
namespace EditHistory

/-- The widths of a diff are the ones that its patch is written with. -/
def Diff.IsMeasured (charset : Charset) (d : Diff) : Prop := Body.widths charset d.patch = .ok d.widths

/-- A measured diff can be written. -/
theorem Diff.IsMeasured.exists_prepare {charset : Charset} {d : Diff} (h : d.IsMeasured charset) :
    ∃ es, Body.prepare charset d.patch = .ok (d.widths, es) := by
  rw [IsMeasured, Body.widths] at h
  obtain ⟨⟨w, es⟩, hprepare, rfl⟩ := map_eq_ok.mp h
  exact ⟨es, hprepare⟩

namespace Recorder

variable {charset : Charset} {settings : Settings} {p : Progress}

/-- All diffs in the tasks that are done and in the one that is open are measured. -/
structure Progress.Measured (charset : Charset) (p : Progress) : Prop where
  output : ∀ d ∈ p.article.output.items.toList, d.IsMeasured charset
  done : ∀ task ∈ p.done, ∀ d ∈ task.items, d.IsMeasured charset

/-- All diffs that wait for their task to be done are measured. -/
def State.Measured (charset : Charset) : State → Prop
  | .collecting article => ∀ d ∈ article.output.items.toList, d.IsMeasured charset
  | .idle | .failed _ => True

theorem isMeasured_of_diffFor {article : Article} {revision : Revision} {text : Text} {patch : Patch}
    {d : Diff} (h : diffFor settings article revision text patch = .ok d) :
    d.IsMeasured settings.codec.charset := by
  rw [diffFor] at h
  obtain ⟨w, hwidths, hrest⟩ := bind_eq_ok.mp h
  rw [mapError_eq_ok] at hwidths
  split at hrest
  · obtain ⟨u, -, hrest⟩ := bind_eq_ok.mp hrest
    obtain rfl := Except.ok.inj hrest
    exact hwidths
  · obtain rfl := Except.ok.inj hrest
    exact hwidths

theorem measured_store (h : p.Measured charset) (text : Text) {d : Diff} (hd : d.IsMeasured charset) :
    (store p text d).Measured charset := by
  have hitems : ∀ x ∈ p.article.output.items.toList ++ [d], x.IsMeasured charset :=
    List.forall_mem_append.mpr ⟨h.output, by simpa using hd⟩
  rcases p.article.output.push_cases d with ⟨size, hpush⟩ | ⟨task, hpush, hnext, -⟩
  · simp only [store, hpush, Progress.emit]
    refine ⟨?_, h.done⟩
    simpa using hitems
  · simp only [store, hpush, Progress.emit]
    refine ⟨by simp, fun t ht => ?_⟩
    rcases List.mem_append.mp ht with ht | ht
    · exact h.done t ht
    · rw [List.mem_singleton.mp ht, hnext.items_eq]
      exact hitems

theorem measured_record {p' : Progress} {revision : Revision}
    (h : p.Measured settings.codec.charset) (hrecord : record settings p revision = .ok p') :
    p'.Measured settings.codec.charset := by
  rcases record_cases hrecord with ⟨-, -, -, notice, -, rfl⟩ | ⟨replaced, text, d, hdiff, rfl⟩
  · exact ⟨h.output, h.done⟩
  · have htallied : Progress.Measured settings.codec.charset
        { p with tally := p.tally.countRevision 0 0 replaced } := ⟨h.output, h.done⟩
    exact measured_store htallied text (isMeasured_of_diffFor hdiff)

theorem measured_recordAll {p' : Progress} {revisions : List Revision}
    (h : p.Measured settings.codec.charset) (hrecord : recordAll settings p revisions = .ok p') :
    p'.Measured settings.codec.charset :=
  foldlM_invariant measured_record h hrecord

theorem measured_done_conclude (h : p.Measured charset) :
    ∀ task ∈ (conclude p).done, ∀ d ∈ task.items, d.IsMeasured charset := by
  intro task htask
  rw [done_conclude] at htask
  rcases List.mem_append.mp htask with htask | htask
  · exact h.done task htask
  · rcases p.article.output.finish_cases with ⟨-, -, hfinish⟩ | ⟨last, hfinish, hnext, -⟩
    · simp [hfinish] at htask
    · rw [hfinish, Option.toList_some, List.mem_singleton] at htask
      rw [htask, hnext.items_eq]
      exact h.output

/-- An answer hands out measured diffs and keeps measured ones back. -/
structure Answer.Measured (charset : Charset) (a : Answer) : Prop where
  state : a.recorder.state.Measured charset
  done : ∀ task ∈ a.done, ∀ d ∈ task.items, d.IsMeasured charset

theorem measured_processAdmitted {article : Article} {task : Task Revision}
    (h : (State.collecting article).Measured settings.codec.charset) (tally : Tally)
    (notices : List Notice) :
    (processAdmitted settings tally article notices task).Measured settings.codec.charset := by
  have hstart : Progress.Measured settings.codec.charset ⟨article, tally, notices, []⟩ := ⟨h, by simp⟩
  cases hrecord : recordAll settings ⟨article, tally, notices, []⟩ (task.items.mergeSort Revision.notAfter) with
  | error e =>
    simp only [processAdmitted, hrecord]
    refine ⟨?_, by simp [Answer.done]⟩
    dsimp only
    split <;> trivial
  | ok p =>
    have hp := measured_recordAll hstart hrecord
    rw [processAdmitted_eq hrecord]
    cases hends : task.kind.endsArticle with
    | true =>
      rw [settle_of_ends hends]
      exact ⟨trivial, measured_done_conclude hp⟩
    | false =>
      rw [settle_of_open hends]
      exact ⟨hp.output, hp.done⟩

/-- A task is admitted to a new article, in which nothing waits, or to the one that is open. -/
theorem measured_of_admission {state : State} (h : state.Measured charset) {article : Article}
    {task : Task Revision} {notices : List Notice}
    (haccepted : admission settings state task = .accepted article notices) :
    (State.collecting article).Measured charset := by
  rcases admission_accepted_cases haccepted with ⟨-, rfl⟩ | ⟨-, rfl⟩
  · simp [State.Measured, Article.start, Portioner.start]
  · exact h

theorem measured_process {r : Recorder} (h : r.state.Measured settings.codec.charset)
    (task : Task Revision) : (r.process settings task).Measured settings.codec.charset := by
  rw [process]
  cases haccepted : admission settings r.state task with
  | accepted article notices => exact measured_processAdmitted (measured_of_admission h haccepted) _ _
  | skipped notice =>
    refine ⟨?_, by simp [Answer.done]⟩
    dsimp only
    split
    · trivial
    · exact h
  | rejected expected => exact ⟨h, by simp [Answer.done]⟩

/-- What tasks lead to comes from the first one and from the others. -/
theorem exists_of_go_cons {r : Recorder} {task : Task Revision} {tasks : List (Task Revision)}
    {done : List (Task Diff)} (h : Sharding.recordArticle.go settings r (task :: tasks) = .ok done) :
    ∃ first others, (r.process settings task).result = .ok first ∧
      Sharding.recordArticle.go settings (r.process settings task).recorder tasks = .ok others ∧
      done = first ++ others := by
  rw [Sharding.recordArticle.go] at h
  obtain ⟨first, hresult, h⟩ := bind_eq_ok.mp h
  obtain ⟨others, hrest, h⟩ := bind_eq_ok.mp h
  exact ⟨first, others, hresult, hrest, (Except.ok.inj h).symm⟩

/-- All diffs that come out of the tasks of an article are measured. -/
theorem measured_go {r : Recorder} (h : r.state.Measured settings.codec.charset)
    {tasks : List (Task Revision)} {done : List (Task Diff)}
    (hgo : Sharding.recordArticle.go settings r tasks = .ok done) :
    ∀ task ∈ done, ∀ d ∈ task.items, d.IsMeasured settings.codec.charset := by
  induction tasks generalizing r done with
  | nil =>
    obtain rfl := Except.ok.inj hgo
    simp
  | cons task tasks ih =>
    obtain ⟨first, others, hresult, hrest, rfl⟩ := exists_of_go_cons hgo
    have hfirst := measured_process h task
    have hdone := hfirst.done
    simp only [Answer.done, hresult] at hdone
    exact List.forall_mem_append.mpr ⟨hdone, ih hfirst.state hrest⟩

end Recorder
end EditHistory
