import EditHistory.Proofs.Archive.Resume
import EditHistory.Proofs.Archive.Runs

/-! The order of tasks. A recorder refuses a task exactly where it does not belong, tells which part
it waits for instead, and is left as it was. So calls lead to the same without the tasks that are
refused among them. -/
namespace EditHistory

def RecorderError.isTaskOrder : RecorderError → Bool
  | taskOrder .. => true
  | settings _ | encode .. | verification .. => false

namespace Recorder

variable {settings : Settings} {r : Recorder} {task : Task Revision} {state : State} {n : Nat}

/-! ## What is refused -/

theorem isTaskOrder_of_diffFor {article : Article} {revision : Revision} {text : Text} {patch : Patch}
    {e : RecorderError} (h : diffFor settings article revision text patch = .error e) :
    e.isTaskOrder = false := by
  rw [diffFor] at h
  rcases bind_eq_error.mp h with hwidths | ⟨widths, -, hrest⟩
  · obtain ⟨cause, -, rfl⟩ := mapError_eq_error.mp hwidths
    rfl
  · split at hrest
    · rcases bind_eq_error.mp hrest with hverify | ⟨u, -, hend⟩
      · obtain ⟨detail, -, rfl⟩ := mapError_eq_error.mp hverify
        rfl
      · cases hend
    · cases hrest

theorem isTaskOrder_of_record {p p' : Progress} {revision : Revision} {e : RecorderError}
    (h : record settings p revision = .error (p', e)) : e.isTaskOrder = false := by
  rw [record] at h
  split at h
  · cases h
  · dsimp only at h
    split at h
    · cases h
    · split at h
      · rename_i hdiff
        obtain ⟨-, rfl⟩ := Prod.mk.inj (Except.error.inj h)
        exact isTaskOrder_of_diffFor hdiff
      · cases h

/-- Recording never fails for the order of tasks. -/
theorem isTaskOrder_of_recordAll {p p' : Progress} {revisions : List Revision} {e : RecorderError}
    (h : recordAll settings p revisions = .error (p', e)) : e.isTaskOrder = false := by
  induction revisions generalizing p with
  | nil => cases h
  | cons revision revisions ih =>
    rw [recordAll, List.foldlM_cons] at h
    rcases bind_eq_error.mp h with hrecord | ⟨q, -, hrest⟩
    · exact isTaskOrder_of_record hrecord
    · exact ih hrest

theorem isTaskOrder_of_processAdmitted {tally : Tally} {article : Article} {notices : List Notice}
    {e : RecorderError} (h : (processAdmitted settings tally article notices task).result = .error e) :
    e.isTaskOrder = false := by
  cases hrecord : recordAll settings ⟨article, tally, notices, []⟩
      (task.items.mergeSort Revision.notAfter) with
  | error failure =>
    simp only [processAdmitted, hrecord] at h
    obtain rfl := Except.error.inj h
    exact isTaskOrder_of_recordAll hrecord
  | ok p =>
    rw [processAdmitted_eq hrecord] at h
    obtain ⟨done, hdone⟩ := exists_result_settle task.kind p
    cases hdone.symm.trans h

/-- A task is found out of order where it is not admitted, and nowhere else. -/
theorem process_eq_taskOrder_iff {articleId part : Nat} {kind : TaskKind} {expected : Option Nat} :
    (r.process settings task).result = .error (.taskOrder articleId kind part expected) ↔
      articleId = task.heading.articleId ∧ kind = task.kind ∧ part = task.part ∧
        admission settings r.state task = .rejected expected := by
  rw [process]
  cases hadmit : admission settings r.state task with
  | accepted article notices =>
    refine iff_of_false (fun h => ?_) (by simp)
    cases isTaskOrder_of_processAdmitted h
  | skipped notice =>
    refine iff_of_false (fun h => ?_) (by simp)
    cases h
  | rejected found => simp [eq_comm]

/-- A task that is refused leaves no trace. -/
theorem process_of_rejected {expected : Option Nat}
    (h : admission settings r.state task = .rejected expected) : r.process settings task =
      ⟨r, [], .error (.taskOrder task.heading.articleId task.kind task.part expected)⟩ := by
  simp only [process, h]

/-! ## Where a task belongs -/

/-- Why a task does not belong where it comes in, with an article open or none and the part that is next
in it, and which part is waited for instead. -/
inductive Misplaced (openId? : Option Nat) (next : Nat) (task : Task Revision) : Option Nat → Prop where
  /-- An article starts with part zero. -/
  | start (hkind : task.kind.startsArticle = true) (hpart : task.part ≠ 0) :
    Misplaced openId? next task (some 0)
  /-- The article of the task is not open. -/
  | closed (hkind : task.kind.startsArticle = false) (hopen : openId? ≠ some task.heading.articleId) :
    Misplaced openId? next task none
  /-- A part comes twice or is left out. -/
  | outOfTurn (hkind : task.kind.startsArticle = false) (hopen : openId? = some task.heading.articleId)
      (hpart : task.part ≠ next) : Misplaced openId? next task (some next)

/-- The article that is open, if one is, waits for the task behind `n` others, counted in words. -/
def State.Awaits (n : Nat) (state : State) : Prop :=
  ∀ article, state = .collecting article → article.nextPart = n % Task.partLimit

theorem admission_eq_rejected_iff (hstate : state.Sound) (hawaits : state.Awaits n)
    (settings : Settings) (task : Task Revision) (expected : Option Nat) :
    admission settings state task = .rejected expected ↔
      Misplaced state.openId? (n % Task.partLimit) task expected := by
  constructor
  · intro h
    by_cases hkind : task.kind.startsArticle = true
    · by_cases hpart : task.part = 0
      · simp [admission, hkind, hpart] at h
      · obtain rfl : some 0 = expected := by simpa [admission, hkind, hpart] using h
        exact .start hkind hpart
    · have hlater : task.kind.startsArticle = false := by simpa using hkind
      cases hstate with
      | idle =>
        obtain rfl : none = expected := by simpa [admission, hlater] using h
        exact .closed hlater (by simp [State.openId?])
      | @collecting article _ =>
        have hnext : article.nextPart = n % Task.partLimit := hawaits article rfl
        by_cases hid : article.heading.articleId = task.heading.articleId
        · by_cases hpart : task.part = n % Task.partLimit
          · simp [admission, hlater, hid, hpart, hnext] at h
          · obtain rfl : some (n % Task.partLimit) = expected := by
              simpa [admission, hlater, hid, hpart, hnext] using h
            exact .outOfTurn hlater (congrArg some hid) hpart
        · obtain rfl : none = expected := by simpa [admission, hlater, hid] using h
          exact .closed hlater (by simpa [State.openId?] using hid)
  · intro h
    cases h with
    | start hkind hpart => simp [admission, hkind, hpart]
    | closed hkind hopen =>
      cases hstate with
      | idle => simp [admission, hkind]
      | @collecting article _ =>
        have hid : article.heading.articleId ≠ task.heading.articleId := by
          simpa [State.openId?] using hopen
        simp [admission, hkind, hid]
    | outOfTurn hkind hopen hpart =>
      cases hstate with
      | idle => simp [State.openId?] at hopen
      | @collecting article _ =>
        have hid : article.heading.articleId = task.heading.articleId := Option.some.inj hopen
        have hnext : article.nextPart = n % Task.partLimit := hawaits article rfl
        simp [admission, hkind, hid, hpart, hnext]

/-! ## Counting the tasks of an article -/

/-- Counts a call for the article that is open. The task that starts an article is its first one, and
a task that is not accepted does not count. -/
def Exchange.count (n : Nat) (x : Exchange) : Nat :=
  match x.call with
  | .reset => 0
  | .process task =>
    if x.answer.error?.isSome then n else if task.kind.startsArticle then 1 else n + 1

/-- The number of tasks that were accepted for the article that is open, its first one included. -/
def acceptedTasks (log : List Exchange) : Nat := log.foldl Exchange.count 0

theorem awaits_processAdmitted {tally : Tally} {article : Article} {notices : List Notice} {m : Nat}
    (hnext : article.nextPart = m % Task.partLimit) :
    let a := processAdmitted settings tally article notices task
    a.recorder.state.Awaits (if a.error?.isSome then n else m + 1) := by
  intro a opened hopened
  cases hrecord : recordAll settings ⟨article, tally, notices, []⟩
      (task.items.mergeSort Revision.notAfter) with
  | error failure =>
    -- an article whose recording fails does not stay open
    simp only [a, processAdmitted, hrecord] at hopened
    split at hopened <;> cases hopened
  | ok p =>
    have hpart : p.article.nextPart = article.nextPart := nextPart_recordAll hrecord
    have ha : a = settle task.kind p := processAdmitted_eq hrecord
    rw [ha] at hopened ⊢
    cases hends : task.kind.endsArticle with
    | true =>
      rw [settle_of_ends hends] at hopened
      cases hopened
    | false =>
      rw [settle_of_open hends] at hopened ⊢
      obtain rfl := State.collecting.inj hopened
      simp [Answer.error?, hpart, hnext, Task.partAfter_mod]

/-- Each call counts for what the recorder waits for next. -/
theorem awaits_answer (h : r.state.Awaits n) (settings : Settings) (call : Call) :
    (r.answer settings call).recorder.state.Awaits
      (Exchange.count n ⟨call, r.answer settings call⟩) := by
  cases call with
  | reset => exact nofun
  | process task =>
    show (r.process settings task).recorder.state.Awaits
      (if (r.process settings task).error?.isSome then n
        else if task.kind.startsArticle then 1 else n + 1)
    cases hadmit : admission settings r.state task with
    | accepted article notices =>
      have hprocess : r.process settings task =
          processAdmitted settings r.tally article notices task := by
        simp only [process, hadmit]
      rw [hprocess]
      rcases admission_accepted_cases hadmit with ⟨hkind, rfl⟩ | ⟨hkind, hopen⟩
      · rw [hkind]
        exact awaits_processAdmitted (Nat.zero_mod _).symm
      · rw [hkind]
        exact awaits_processAdmitted (h article hopen)
    | skipped notice =>
      intro article hopen
      simp only [process, hadmit] at hopen
      split at hopen
      · cases hopen
      · exact absurd hadmit (admission_ne_skipped hopen)
    | rejected expected =>
      rw [process_of_rejected hadmit]
      exact h

theorem awaits_after (h : r.state.Awaits n) (settings : Settings) (calls : List Call) :
    (r.after settings calls).state.Awaits ((r.exchanges settings calls).foldl Exchange.count n) := by
  induction calls generalizing r n with
  | nil => exact h
  | cons call calls ih => exact ih (awaits_answer h settings call)

/-! ## Calls without those that are refused -/

/-- The task of the call is refused as out of order. -/
def Exchange.isRefused (x : Exchange) : Bool := x.answer.error?.any RecorderError.isTaskOrder

theorem answer_of_isRefused {call : Call}
    (h : Exchange.isRefused ⟨call, r.answer settings call⟩ = true) :
    (r.answer settings call).recorder = r ∧ (r.answer settings call).done = [] := by
  cases call with
  | reset => cases h
  | process task =>
    simp only [Exchange.isRefused, Answer.error?, answer] at h
    split at h
    · cases h
    · rename_i e herror
      cases e with
      | taskOrder articleId kind part expected =>
        have hrejected := (process_eq_taskOrder_iff.mp herror).2.2.2
        simp [answer, process_of_rejected hrejected, Answer.done]
      | settings | encode | verification => cases h

/-- Without the calls that are refused the others are answered in the same way. -/
theorem exchanges_filter (settings : Settings) (r : Recorder) (calls : List Call) :
    let kept := (r.exchanges settings calls).filter fun x => !x.isRefused
    r.exchanges settings (kept.map Exchange.call) = kept ∧
      r.after settings (kept.map Exchange.call) = r.after settings calls := by
  induction calls generalizing r with
  | nil => exact ⟨rfl, rfl⟩
  | cons call calls ih =>
    obtain ⟨hexchanges, hafter⟩ := ih (r.answer settings call).recorder
    cases hrefused : Exchange.isRefused ⟨call, r.answer settings call⟩ with
    | true =>
      have hsame := (answer_of_isRefused hrefused).1
      rw [hsame] at hexchanges hafter
      simpa [exchanges, hrefused, after, hsame] using ⟨hexchanges, hafter⟩
    | false => simp [exchanges, hrefused, after, hexchanges, hafter]

theorem flatMap_done_filter (settings : Settings) (r : Recorder) (calls : List Call) :
    ((r.exchanges settings calls).filter fun x => !x.isRefused).flatMap (·.answer.done) =
      (r.exchanges settings calls).flatMap (·.answer.done) := by
  induction calls generalizing r with
  | nil => rfl
  | cons call calls ih =>
    cases hrefused : Exchange.isRefused ⟨call, r.answer settings call⟩ with
    | true => simp [exchanges, hrefused, (answer_of_isRefused hrefused).2, ih]
    | false => simp [exchanges, hrefused, ih]

theorem openId?_eq (r : Recorder) : r.state.openId? = r.currentArticle.map Heading.articleId := by
  unfold State.openId? currentArticle
  cases r.state <;> rfl

/-- A task is found out of order exactly where it is misplaced, and the error names the task and the
part that is waited for instead: zero, none, or the number of tasks that were accepted, as the 32-bit word
that parts are numbered in. The recorder is left as it was, with no notice of it. So without the tasks that
are refused, calls are answered in the same way, hand out the same tasks and lead to the same recorder. -/
theorem process_refuses_misplaced {r₀ : Recorder} (hcreate : create settings = .ok r₀)
    (calls : List Call) :
    let log := r₀.exchanges settings calls
    let r := r₀.after settings calls
    let kept := (log.filter fun x => !x.isRefused).map Exchange.call
    ((∀ call ∈ calls, ∀ x ∈ call.revisions, 3 * x.text.length < 1 <<< 31) →
      ∀ (task : Task Revision) (articleId part : Nat) (kind : TaskKind) (expected : Option Nat),
        (r.process settings task).result = .error (.taskOrder articleId kind part expected) ↔
          articleId = task.heading.articleId ∧ kind = task.kind ∧ part = task.part ∧
            Misplaced (r.currentArticle.map Heading.articleId) (acceptedTasks log % Task.partLimit) task
              expected) ∧
    (∀ (task : Task Revision) (articleId part : Nat) (kind : TaskKind) (expected : Option Nat),
      (r.process settings task).result = .error (.taskOrder articleId kind part expected) →
        (r.process settings task).recorder = r ∧ (r.process settings task).notices = []) ∧
    r₀.exchanges settings kept = (log.filter fun x => !x.isRefused) ∧
    (r₀.answers settings kept).flatMap Answer.done =
      (r₀.answers settings calls).flatMap Answer.done ∧
    r₀.after settings kept = r := by
  obtain ⟨-, rfl⟩ := eq_start_of_create hcreate
  intro log r kept
  have hkept : start.exchanges settings kept = log.filter fun x => !x.isRefused :=
    (exchanges_filter settings start calls).1
  refine ⟨fun htexts task articleId part kind expected => ?_, ?_, hkept, ?_,
    (exchanges_filter settings start calls).2⟩
  · have hsound : r.state.Sound := sound_state_after .idle
      fun call hcall x hx => Text.isShort_of_lt (htexts call hcall x hx)
    have hawaits : r.state.Awaits (acceptedTasks log) :=
      awaits_after (r := start) (n := 0) nofun settings calls
    rw [process_eq_taskOrder_iff, admission_eq_rejected_iff hsound hawaits, openId?_eq]
  · intro task articleId part kind expected herror
    have hrejected := (process_eq_taskOrder_iff.mp herror).2.2.2
    rw [process_of_rejected hrejected]
    exact ⟨rfl, rfl⟩
  · rw [← map_answer_exchanges, ← map_answer_exchanges, List.flatMap_map, List.flatMap_map, hkept]
    exact flatMap_done_filter settings start calls

/-- The article waits for its second part while a task of another article, one part too early and one
too late come in. -/
theorem process_refuses_misplaced_thrice :
    let task (articleId part : Nat) (kind : TaskKind) : Task Revision :=
      ⟨⟨articleId, "Lean"⟩, part, kind, [⟨part, 11, ⟨5, 0⟩, [0x61], "", .anonymous "::1", false⟩], 0⟩
    let calls := [task 7 0 .first, task 8 1 .middle, task 7 0 .last, task 7 2 .last].map Call.process
    let r := start.after .default calls
    let kept := ((start.exchanges .default calls).filter fun x => !x.isRefused).map Exchange.call
    create .default = .ok start ∧
      (r.process .default (task 7 2 .middle)).result =
        .error (.taskOrder 7 .middle 2 (some 1)) ∧
      (r.process .default (task 8 1 .last)).result = .error (.taskOrder 8 .last 1 none) ∧
      (r.process .default (task 8 1 .full)).result = .error (.taskOrder 8 .full 1 (some 0)) ∧
      (r.process .default (task 8 1 .full)).recorder = r ∧
      kept.length = 1 ∧ start.after .default kept = r := by
  intro task calls r kept
  have hcreate : create .default = .ok start := rfl
  obtain ⟨hexact, htrace, -, -, hafter⟩ := process_refuses_misplaced hcreate calls
  have hrefused := hexact (by decide)
  have hcount : acceptedTasks (start.exchanges .default calls) = 1 := by decide +kernel
  have hopen : r.currentArticle.map Heading.articleId = some 7 := by decide +kernel
  rw [hcount, hopen] at hrefused
  have hfull : (r.process .default (task 8 1 .full)).result =
      .error (.taskOrder 8 .full 1 (some 0)) :=
    (hrefused _ _ _ _ _).mpr ⟨rfl, rfl, rfl, .start rfl (by decide)⟩
  refine ⟨hcreate, ?_, ?_, hfull, (htrace _ _ _ _ _ hfull).1, by decide +kernel, hafter⟩
  · exact (hrefused (task 7 2 .middle) _ _ _ _).mpr ⟨rfl, rfl, rfl, .outOfTurn rfl rfl (by decide)⟩
  · exact (hrefused (task 8 1 .last) _ _ _ _).mpr ⟨rfl, rfl, rfl, .closed rfl (by decide)⟩

end Recorder
end EditHistory
