import EditHistory.Proofs.Archive.Runs
import EditHistory.Proofs.Sum

/-! The counts of a recorder account for all that was asked of it. A revision that came in was stored or
left out; and a stored diff is in a task that was handed out, or waits in the article that is open, or was
lost with an article that was given up. -/
namespace EditHistory

/-- The counts are those of the tasks handed out and of the diffs stored. -/
structure Tally.Accounts (t : Tally) (tasks : List (Task Diff)) (stored : List Diff) : Prop where
  revisionsIn_eq : t.revisionsIn = t.diffsOut + t.noopDrops + t.surrogateDrops
  tasksOut_eq : t.tasksOut = tasks.length
  diffsOut_eq : t.diffsOut = stored.length
  diffBytes_eq : t.diffBytes = sumOf Sized.byteSize stored
  fullRevisions_eq : t.fullRevisions = stored.countP Diff.isFull

namespace Tally.Accounts

variable {t : Tally} {tasks : List (Task Diff)} {stored stored' : List Diff}

theorem zero : Tally.zero.Accounts [] [] := ⟨rfl, rfl, rfl, rfl, rfl⟩

theorem perm (h : t.Accounts tasks stored) (hperm : stored.Perm stored') : t.Accounts tasks stored' where
  revisionsIn_eq := h.revisionsIn_eq
  tasksOut_eq := h.tasksOut_eq
  diffsOut_eq := h.diffsOut_eq.trans hperm.length_eq
  diffBytes_eq := h.diffBytes_eq.trans (sumOf_perm _ hperm)
  fullRevisions_eq := h.fullRevisions_eq.trans (hperm.countP_eq _)

/-- A revision is left out. -/
theorem leaveOut (h : t.Accounts tasks stored) {noops drops : Nat} (hone : noops + drops = 1)
    (replaced : Nat) : (t.countRevision noops drops replaced).Accounts tasks stored where
  revisionsIn_eq := by
    have hbefore := h.revisionsIn_eq
    simp only [countRevision]
    omega
  tasksOut_eq := h.tasksOut_eq
  diffsOut_eq := h.diffsOut_eq
  diffBytes_eq := h.diffBytes_eq
  fullRevisions_eq := h.fullRevisions_eq

/-- The diff of a revision is stored. -/
theorem store (h : t.Accounts tasks stored) (replaced : Nat) (d : Diff) :
    ((t.countRevision 0 0 replaced).countDiff d).Accounts tasks (stored ++ [d]) where
  revisionsIn_eq := by
    have hbefore := h.revisionsIn_eq
    simp only [countRevision, countDiff]
    omega
  tasksOut_eq := h.tasksOut_eq
  diffsOut_eq := by
    rw [List.length_append, ← h.diffsOut_eq]
    rfl
  diffBytes_eq := by
    rw [sumOf_append, ← h.diffBytes_eq]
    rfl
  fullRevisions_eq := by
    rw [List.countP_append, ← h.fullRevisions_eq, List.countP_singleton]
    cases hfull : d.isFull <;> simp [countRevision, countDiff, hfull]

/-- A task is handed out. -/
theorem handOut (h : t.Accounts tasks stored) (task : Task Diff) :
    { t with tasksOut := t.tasksOut + 1 : Tally }.Accounts (tasks ++ [task]) stored where
  revisionsIn_eq := h.revisionsIn_eq
  tasksOut_eq := by
    rw [List.length_append, ← h.tasksOut_eq]
    rfl
  diffsOut_eq := h.diffsOut_eq
  diffBytes_eq := h.diffBytes_eq
  fullRevisions_eq := h.fullRevisions_eq

end Tally.Accounts

namespace Recorder

/-- The diffs that wait in the open article for the task to be handed out next. -/
def buffered (r : Recorder) : List Diff :=
  match r.state with
  | .collecting article => article.output.items.toList
  | .idle | .failed _ => []

/-- The diffs that are lost where open articles are given up. -/
def discarded (settings : Settings) : Recorder → List Call → List Diff
  | _, [] => []
  | r, call :: rest =>
    let answer := r.answer settings call
    (if Exchange.leaves ⟨call, answer⟩ then r.buffered else []) ++
      answer.recorder.discarded settings rest

variable {settings : Settings} {tasks : List (Task Diff)} {others : List Diff} {p p' : Progress}
  {r : Recorder}

/-! ## One revision -/

/-- The counts at some progress, where these tasks and these other diffs were there before. -/
def Progress.Accounts (tasks : List (Task Diff)) (others : List Diff) (p : Progress) : Prop :=
  p.tally.Accounts (tasks ++ p.done)
    (others ++ p.done.flatMap Task.items ++ p.article.output.items.toList)

theorem accounts_store {replaced : Nat} (h : p.Accounts tasks others) (text : Text) (d : Diff) :
    (store { p with tally := p.tally.countRevision 0 0 replaced } text d).Accounts tasks others := by
  have hstored := Tally.Accounts.store h replaced d
  rcases p.article.output.push_cases d with ⟨size, hpush⟩ | ⟨task, hpush, hnext, -⟩
  · simp only [store, hpush, Progress.emit, Progress.Accounts, Array.toList_push]
    rwa [← List.append_assoc]
  · simp only [store, hpush, Progress.emit, Progress.Accounts]
    have hitems : (p.done ++ [task]).flatMap Task.items =
        p.done.flatMap Task.items ++ (p.article.output.items.toList ++ [d]) := by
      simp [hnext.items_eq]
    rw [hitems, List.append_nil, ← List.append_assoc, ← List.append_assoc, ← List.append_assoc]
    exact hstored.handOut task

theorem accounts_record {revision : Revision} (h : p.Accounts tasks others)
    (hrecord : record settings p revision = .ok p') : p'.Accounts tasks others := by
  rcases record_cases hrecord with
    ⟨noops, drops, replaced, notice, hone, rfl⟩ | ⟨replaced, text, d, -, rfl⟩
  · exact Tally.Accounts.leaveOut h hone replaced
  · exact accounts_store h text d

theorem accounts_recordAll {revisions : List Revision} (h : p.Accounts tasks others)
    (hrecord : recordAll settings p revisions = .ok p') : p'.Accounts tasks others :=
  foldlM_invariant accounts_record h hrecord

/-! ## One call -/

theorem accounts_conclude (h : p.Accounts tasks others) :
    (conclude p).tally.Accounts (tasks ++ (conclude p).done)
      (others ++ (conclude p).done.flatMap Task.items) := by
  rw [Progress.Accounts] at h
  rcases p.article.output.finish_cases with ⟨-, hitems, hfinish⟩ | ⟨last, hfinish, hnext, -⟩
  · simp only [conclude, hfinish, Progress.emit, Progress.notify]
    rwa [hitems, List.append_nil] at h
  · simp only [conclude, hfinish, Progress.emit, Progress.notify]
    rw [List.flatMap_append, List.flatMap_singleton, hnext.items_eq, ← List.append_assoc,
      ← List.append_assoc]
    exact h.handOut last

theorem accounts_settle (h : p.Accounts tasks others) (kind : TaskKind) :
    let a := settle kind p
    a.recorder.tally.Accounts (tasks ++ a.done)
      (others ++ a.done.flatMap Task.items ++ a.recorder.buffered) := by
  intro a
  cases hends : kind.endsArticle with
  | true =>
    rw [show a = _ from settle_of_ends hends p]
    exact (List.append_nil _).symm ▸ accounts_conclude h
  | false =>
    rw [show a = _ from settle_of_open hends p]
    exact h

variable {task : Task Revision} {article : Article} {calls : List Call} {lost lost' : List Diff}

/-- The counts of a recorder after these tasks were handed out and these diffs were lost. -/
def Accounts (tasks : List (Task Diff)) (lost : List Diff) (r : Recorder) : Prop :=
  r.tally.Accounts tasks (tasks.flatMap Task.items ++ r.buffered ++ lost)

/-- An admitted task finds the buffered diffs in its article, or they are lost. -/
theorem accounts_processAdmitted (h : r.Accounts tasks lost) (hsound : article.Sound)
    (htexts : ∀ x ∈ task.items, x.text.IsShort)
    (hperm : (r.buffered ++ lost).Perm (lost' ++ article.output.items.toList)) (notices : List Notice) :
    let a := processAdmitted settings r.tally article notices task
    a.recorder.Accounts (tasks ++ a.done) lost' := by
  obtain ⟨p, -, hrecord, -, -, ha⟩ := exists_settle settings task r.tally notices hsound htexts
  have hbefore : Progress.Accounts tasks (tasks.flatMap Task.items ++ lost')
      ⟨article, r.tally, notices, []⟩ := by
    rw [Progress.Accounts, List.append_nil, List.flatMap_nil, List.append_nil, List.append_assoc]
    refine Tally.Accounts.perm h ?_
    rw [List.append_assoc]
    exact hperm.append_left _
  rw [ha]
  refine (accounts_settle (accounts_recordAll hbefore hrecord) task.kind).perm ?_
  rw [List.flatMap_append, List.perm_iff_count]
  intro d
  simp only [List.count_append]
  omega

theorem accounts_answer (hstate : r.state.Sound) (h : r.Accounts tasks lost) {call : Call}
    (htexts : ∀ x ∈ call.revisions, x.text.IsShort) :
    let a := r.answer settings call
    a.recorder.Accounts (tasks ++ a.done)
      (lost ++ if Exchange.leaves ⟨call, a⟩ then r.buffered else []) := by
  intro a
  cases hleaves : Exchange.leaves ⟨call, a⟩ with
  | true =>
    -- what was buffered is lost, be there an article after it or not
    have hperm : (r.buffered ++ lost).Perm (lost ++ r.buffered) := List.perm_append_comm
    rw [if_pos rfl]
    rcases leaves_cases hstate hleaves with rfl | ⟨task, rfl, -, hanswer⟩
    · rw [Accounts, show a.done = [] from rfl, List.append_nil]
      refine Tally.Accounts.perm h ?_
      simpa [a, answer, reset, buffered] using hperm.append_left (tasks.flatMap Task.items)
    · rw [show a = _ from hanswer]
      refine accounts_processAdmitted h (sound_start _ _) htexts ?_ _
      simpa [Article.start, Portioner.start] using hperm
  | false =>
    rw [if_neg Bool.false_ne_true, List.append_nil]
    rcases stays_cases hstate htexts hleaves with
      ⟨hrecorder, hdone⟩ | ⟨task, article, rfl, hopen, hanswer⟩
    · rwa [show a.recorder = r from hrecorder, show a.done = [] from hdone, List.append_nil]
    · rw [hopen] at hstate
      have hperm : (r.buffered ++ lost).Perm (lost ++ article.output.items.toList) := by
        rw [buffered, hopen]
        exact List.perm_append_comm
      rw [show a = _ from hanswer]
      cases hstate with
      | collecting hsound => exact accounts_processAdmitted h hsound htexts hperm []

/-! ## All calls -/

theorem accounts_after (hstate : r.state.Sound) (h : r.Accounts tasks lost)
    (htexts : ∀ call ∈ calls, ∀ x ∈ call.revisions, x.text.IsShort) :
    (r.after settings calls).Accounts (tasks ++ (r.answers settings calls).flatMap Answer.done)
      (lost ++ r.discarded settings calls) := by
  induction calls generalizing r tasks lost with
  | nil => simpa [after, answers, discarded] using h
  | cons call calls ih =>
    have hfirst := htexts call (by simp)
    have hnext : (r.answer settings call).recorder.Accounts (tasks ++ (r.answer settings call).done)
        (lost ++ if Exchange.leaves ⟨call, r.answer settings call⟩ then r.buffered else []) :=
      accounts_answer hstate h hfirst
    have hrest := ih (sound_answer hstate hfirst).state hnext fun c hc => htexts c (by simp [hc])
    rw [answers, List.flatMap_cons, discarded, ← List.append_assoc, ← List.append_assoc]
    exact hrest

/-- The counts account for everything that was asked of a recorder. -/
theorem tally_after (hcreate : create settings = .ok r) (calls : List Call)
    (htexts : ∀ call ∈ calls, ∀ x ∈ call.revisions, 3 * x.text.length < 1 <<< 31) :
    let tasks := (r.answers settings calls).flatMap Answer.done
    (r.after settings calls).tally.Accounts tasks
      (tasks.flatMap Task.items ++ (r.after settings calls).buffered ++ r.discarded settings calls) := by
  obtain ⟨-, rfl⟩ := eq_start_of_create hcreate
  have hzero : start.Accounts [] [] := Tally.Accounts.zero
  exact accounts_after .idle hzero fun call hcall x hx => Text.isShort_of_lt (htexts call hcall x hx)

/-- A text comes twice and a part comes too late, then the article is given up for another one. The last
article is left open, after a revision with a lone surrogate. -/
theorem tally_after_given_up :
    let revision (sequence : Nat) (text : Text) : Revision :=
      ⟨sequence, 10 + sequence, ⟨sequence, 0⟩, text, "", .anonymous "::1", false⟩
    let calls : List Call :=
      [.process ⟨⟨7, "Lean"⟩, 0, .first, [revision 0 [0x61]], 0⟩,
        .process ⟨⟨7, "Lean"⟩, 1, .middle, [revision 1 [0x61]], 0⟩,
        .process ⟨⟨7, "Lean"⟩, 4, .last, [revision 2 [0x62]], 0⟩,
        .process ⟨⟨8, "Diff"⟩, 0, .full, [revision 0 [0x63]], 0⟩,
        .process ⟨⟨9, "Rust"⟩, 0, .first, [revision 0 [0xD800]], 0⟩,
        .process ⟨⟨9, "Rust"⟩, 1, .middle, [revision 1 [0x64]], 0⟩]
    let r := start.after .default calls
    let tasks := (start.answers .default calls).flatMap Answer.done
    let lost := start.discarded .default calls
    create .default = .ok start ∧ tasks.length = 1 ∧ r.buffered.length = 1 ∧ lost.length = 1 ∧
      r.tally.Accounts tasks (tasks.flatMap Task.items ++ r.buffered ++ lost) := by
  intro revision calls r tasks lost
  refine ⟨rfl, by decide +kernel, by decide +kernel, by decide +kernel, ?_⟩
  exact tally_after rfl calls (by decide)

end Recorder
end EditHistory
