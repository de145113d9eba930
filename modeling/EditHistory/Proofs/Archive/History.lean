import EditHistory.Proofs.Archive.Recorder
import EditHistory.Proofs.Archive.Replay
import EditHistory.Sharding.Network

/-! The history of an article, from its revisions in tasks to the texts that are rebuilt from its
diffs. Where the tasks are cut makes no difference. -/
namespace EditHistory

open Version

/-- The versions that a history is to keep of an article. -/
def Settings.versions (settings : Settings) (revisions : List Revision) : List Version :=
  select settings.interval 0 [] (admitted settings.surrogates revisions)

namespace Recorder

variable {settings : Settings} {heading : Heading} {part : Nat} {starts : Bool}
  {p : Portioner Revision} {r : Recorder} {article : Article}

/-- The recorder is about to take a task of this heading and part: to start an article with it, or to go on
with the one that is open. -/
inductive Ready (settings : Settings) (heading : Heading) (part : Nat) (r : Recorder) :
    Bool → Article → Prop where
  | start (hpart : part = 0) :
    Ready settings heading part r true (Article.start heading settings.outputLimit)
  | next {article : Article} (hstate : r.state = .collecting article)
    (hheading : article.heading = heading) (hnext : article.nextPart = part) :
    Ready settings heading part r false article

theorem Ready.heading_eq (h : Ready settings heading part r starts article) :
    article.heading = heading := by
  cases h with
  | start hpart => rfl
  | next hstate hheading hnext => exact hheading

theorem Ready.nextPart_eq (h : Ready settings heading part r starts article) :
    article.nextPart = part := by
  cases h with
  | start hpart => exact hpart.symm
  | next hstate hheading hnext => exact hnext

theorem Ready.eq_start (h : Ready settings heading part r true article) :
    article = Article.start heading settings.outputLimit := by
  cases h
  rfl

/-- The task is admitted. -/
theorem Ready.exists_process_eq (h : Ready settings heading part r starts article)
    {task : Task Revision} (hheading : task.heading = heading) (hpart : task.part = part)
    (hstarts : task.kind.startsArticle = starts) :
    ∃ notices, r.process settings task = processAdmitted settings r.tally article notices task := by
  cases h with
  | start hzero =>
    exact ⟨discardNotice r.state, by simp [process, admission, hstarts, hpart, hzero, hheading]⟩
  | next hstate harticle hnext =>
    exact ⟨[], by simp [process, admission, hstarts, hstate, harticle, hheading, hpart, hnext]⟩

theorem go_cons {task : Task Revision} {rest : List (Task Revision)} {done tasks : List (Task Diff)}
    (hprocess : (r.process settings task).result = .ok done)
    (hrest : Sharding.recordArticle.go settings (r.process settings task).recorder rest = .ok tasks) :
    Sharding.recordArticle.go settings r (task :: rest) = .ok (done ++ tasks) := by
  rw [Sharding.recordArticle.go, hprocess, hrest]
  rfl

/-- The task that closes an article is recorded, if there is one. -/
theorem exists_go_finish (h : Ready settings p.heading p.part r (decide (p.part = 0)) article)
    (hsorted : p.items.toList.Pairwise fun x y => x.notAfter y)
    (hprevious : article.previous.IsShort) (htexts : ∀ x ∈ p.items.toList, x.text.IsShort) :
    ∃ ds, Stores settings.interval article.counter article.previous
        (kept settings article p.items.toList) ds ∧
      Sharding.recordArticle.go settings r p.finish.toList = .ok (article.output.tasksOf ds) := by
  rcases p.finish_cases with ⟨hpart, hitems, hfinish⟩ | ⟨task, hfinish, htask, hends⟩
  · rw [decide_eq_true hpart] at h
    obtain rfl := h.eq_start
    refine ⟨[], ?_, ?_⟩
    · rw [hitems, kept_nil]
      exact .nil
    · rw [hfinish]
      rfl
  · rw [← htask.items_eq] at hsorted htexts ⊢
    obtain ⟨notices, hprocess⟩ := h.exists_process_eq htask.heading_eq htask.part_eq htask.starts_eq
    obtain ⟨ds, hstores, -, hlast⟩ :=
      exists_processAdmitted settings task r.tally notices hsorted hprevious htexts
    refine ⟨ds, hstores, ?_⟩
    rw [hfinish, ← List.append_nil (article.output.tasksOf ds)]
    exact go_cons (hprocess ▸ hlast hends) rfl

/-- Behind a task that does not close its article the recorder has taken in all items so far and
waits for the next task. -/
theorem exists_process_of_open (h : Ready settings p.heading p.part r (decide (p.part = 0)) article)
    {items : List Revision} {task : Task Revision} (htask : p.Next items task)
    (hends : task.kind.endsArticle = false) (hsorted : items.Pairwise fun x y => x.notAfter y)
    (hprevious : article.previous.IsShort) (htexts : ∀ x ∈ items, x.text.IsShort) :
    ∃ ds, Stores settings.interval article.counter article.previous (kept settings article items) ds ∧
      (r.process settings task).result = .ok (article.output.pushAll ds).1 ∧
      Ready settings p.heading (Task.partAfter p.part) (r.process settings task).recorder false
        { article.after (kept settings article items) ds with
          nextPart := Task.partAfter article.nextPart } := by
  rw [← htask.items_eq] at hsorted htexts ⊢
  obtain ⟨notices, hprocess⟩ := h.exists_process_eq htask.heading_eq htask.part_eq htask.starts_eq
  obtain ⟨ds, hstores, hopen, -⟩ :=
    exists_processAdmitted settings task r.tally notices hsorted hprevious htexts
  obtain ⟨hstate, hresult⟩ := hopen hends
  refine ⟨ds, hstores, hprocess ▸ hresult, ?_⟩
  exact .next (hprocess ▸ hstate) h.heading_eq (congrArg Task.partAfter h.nextPart_eq)

/-- Tasks with the items that are still open and the ones that follow are recorded as one list of
revisions, if there are words enough to number them. -/
theorem exists_go {revisions : List Revision}
    (h : Ready settings p.heading p.part r (decide (p.part = 0)) article)
    (hcount : p.part + (p.pushAll revisions).1.length < Task.partLimit)
    (hsorted : (p.items.toList ++ revisions).Pairwise fun x y => x.notAfter y)
    (hprevious : article.previous.IsShort)
    (htexts : ∀ x ∈ p.items.toList ++ revisions, x.text.IsShort) :
    ∃ ds, Stores settings.interval article.counter article.previous
        (kept settings article (p.items.toList ++ revisions)) ds ∧
      Sharding.recordArticle.go settings r (p.tasksOf revisions) = .ok (article.output.tasksOf ds) := by
  induction revisions generalizing p r article with
  | nil =>
    rw [List.append_nil] at hsorted htexts ⊢
    exact exists_go_finish h hsorted hprevious htexts
  | cons x revisions ih =>
    have hitems : p.items.toList ++ x :: revisions = (p.items.toList ++ [x]) ++ revisions := by simp
    rw [hitems] at hsorted htexts ⊢
    rcases p.push_cases x with ⟨size, hpush⟩ | ⟨task, hpush, htask, hends⟩
    · rw [Portioner.pushAll, hpush] at hcount
      rw [Portioner.tasksOf, hpush]
      rw [← Array.toList_push] at hsorted htexts ⊢
      exact ih (p := { p with items := p.items.push x, byteSize := size }) h hcount hsorted hprevious
        htexts
    · rw [Portioner.pushAll, hpush, Option.toList_some, List.singleton_append, List.length_cons] at hcount
      have hpart : Task.partAfter p.part = p.part + 1 := Task.partAfter_of_lt (by omega)
      have hsum (n : Nat) : Task.partAfter p.part + n = p.part + (n + 1) := by omega
      obtain ⟨hfirst, hlater, -⟩ := List.pairwise_append.mp hsorted
      have hearly : ∀ y ∈ p.items.toList ++ [x], y.text.IsShort :=
        fun y hy => htexts y (List.mem_append_left _ hy)
      obtain ⟨ds, hstores, hresult, hready⟩ :=
        exists_process_of_open h htask hends hfirst hprevious hearly
      -- the words do not come round, so the next task does not look like the start of an article
      have hcontinues : decide (Task.partAfter p.part = 0) = false := by simp [hpart]
      rw [← hcontinues] at hready
      obtain ⟨es, hmore, hgo⟩ := ih
        (p := { p with items := #[], byteSize := 0, part := Task.partAfter p.part }) hready
        (lt_of_eq_of_lt (hsum _) hcount) hlater (isShort_previous_after ds hprevious hearly)
        fun y hy => htexts y (List.mem_append_right _ hy)
      refine ⟨ds ++ es, ?_, ?_⟩
      · rw [kept_append settings article (p.items.toList ++ [x]) revisions ds]
        exact hstores.append hmore
      · rw [Portioner.tasksOf, hpush, Portioner.tasksOf_append]
        exact go_cons hresult hgo

/-- A new recorder records the tasks of an article. -/
theorem exists_go_start {limit : Nat} {revisions : List Revision}
    (hcount : Task.completed heading limit revisions < Task.partLimit)
    (hsorted : revisions.Pairwise fun x y => x.notAfter y) (htexts : ∀ x ∈ revisions, x.text.IsShort) :
    ∃ ds, Stores settings.interval 0 [] (settings.versions revisions) ds ∧
      Sharding.recordArticle.go settings start (Task.split heading limit revisions) =
        .ok (Task.split heading settings.outputLimit ds) := by
  have hready : Ready settings heading 0 start true (Article.start heading settings.outputLimit) :=
    .start rfl
  exact exists_go (p := Portioner.start heading limit) hready ((Nat.zero_add _).symm ▸ hcount) hsorted
    (Nat.zero_le _) htexts

end Recorder

theorem Settings.interval_pos {settings : Settings} (h : settings.validate = .ok ()) :
    0 < settings.interval := by
  refine Nat.pos_of_ne_zero ?_
  intro hzero
  simp only [Settings.validate, hzero, if_true] at h
  split at h <;> cases h

namespace Sharding

/-- The history of an article replays. Recorded under valid settings, the sorted revisions of an
article, in tasks of whatever size, lead to one diff for each version to be kept, counted from one
on, and full at every interval; the diffs come out in the tasks that they split into, and every
counter leads back to the text of its version in at most as many steps as there are in an interval.
Counters are 64-bit words, and the tasks that come in are numbered in 32-bit words, which must not come
round. -/
theorem reconstruct_recordArticle (settings : Settings) (hvalid : settings.validate = .ok ())
    (heading : Heading) (limit : Nat) (revisions : List Revision)
    (hcount : Task.completed heading limit revisions < Task.partLimit)
    (hsorted : revisions.Pairwise fun x y => x.notAfter y)
    (htexts : ∀ r ∈ revisions, 3 * r.text.length < 1 <<< 31) :
    ∃ tasks diffs, recordArticle settings (Task.split heading limit revisions) = .ok tasks ∧
      tasks.flatMap Task.items = diffs ∧ tasks = Task.split heading settings.outputLimit diffs ∧
      diffs.map Diff.counter = List.range' 1 (settings.versions revisions).length ∧
      diffs.map Diff.revisionId = (settings.versions revisions).map (·.revision.id) ∧
      (∀ d ∈ diffs, d.isFull = true ↔ (d.counter - 1) % settings.interval = 0) ∧
      ∀ i (hi : i < (settings.versions revisions).length),
        (i + 1 < Decimal.wordLimit →
          Replay.reconstruct diffs (i + 1) = .ok (settings.versions revisions)[i].text) ∧
        ∃ first stop, Replay.range diffs (i + 1) = .ok (first, stop) ∧
          stop - first ≤ settings.interval := by
  obtain ⟨diffs, hstores, hgo⟩ := Recorder.exists_go_start hcount hsorted
    fun r hr => Text.isShort_of_lt (htexts r hr)
  have hpos := Settings.interval_pos hvalid
  refine ⟨Task.split heading settings.outputLimit diffs, diffs, ?_, Task.flatMap_items_split .., rfl,
    hstores.map_counter, hstores.map_revisionId, fun d => hstores.isFull_iff, ?_⟩
  · rw [recordArticle, Recorder.create, hvalid]
    exact hgo
  · intro i hi
    refine ⟨hstores.reconstruct_eq hi, i - i % settings.interval, i + 1, hstores.range_eq hi, ?_⟩
    have hmod := Nat.mod_lt i hpos
    omega

/-- The third version is kept, though it changes nothing, as a full diff is due; the fourth one is
not. -/
theorem reconstruct_recordArticle_unchanged : ∃ tasks,
    recordArticle { Settings.default with interval := 2 } (Task.split ⟨7, "Lean"⟩ 40
      [⟨0, 11, ⟨5, 0⟩, [0x61], "", .anonymous "::1", false⟩,
        ⟨1, 12, ⟨5, 0⟩, [0x62], "", .anonymous "::1", false⟩,
        ⟨2, 13, ⟨6, 0⟩, [0x62], "", .anonymous "::1", false⟩,
        ⟨3, 14, ⟨6, 5⟩, [0x62], "", .anonymous "::1", true⟩]) = .ok tasks ∧
      (tasks.flatMap Task.items).map Diff.revisionId = [11, 12, 13] ∧
      Replay.reconstruct (tasks.flatMap Task.items) 2 = .ok [0x62] := by
  obtain ⟨tasks, diffs, hrecord, rfl, -, -, hids, -, htext⟩ :=
    reconstruct_recordArticle { Settings.default with interval := 2 } rfl ⟨7, "Lean"⟩ 40
      [⟨0, 11, ⟨5, 0⟩, [0x61], "", .anonymous "::1", false⟩,
        ⟨1, 12, ⟨5, 0⟩, [0x62], "", .anonymous "::1", false⟩,
        ⟨2, 13, ⟨6, 0⟩, [0x62], "", .anonymous "::1", false⟩,
        ⟨3, 14, ⟨6, 5⟩, [0x62], "", .anonymous "::1", true⟩] (by decide +kernel) (by decide) (by decide)
  exact ⟨tasks, hrecord, hids.trans (by decide), (htext 1 (by decide)).1 (by decide)⟩

end Sharding
end EditHistory
