import EditHistory.Proofs.Archive.Recorder
import Mathlib.Algebra.BigOperators.Group.List.Basic

/-! Work on an article does not depend on the work before it. What revisions add to the counts and to
the finished tasks is the same whether they come in one task or in the next one, and whatever else
the recorder has counted until then. -/
namespace EditHistory

namespace Tally

instance : Add Tally := ⟨Tally.add⟩

instance : Zero Tally := ⟨Tally.zero⟩

/-- Counts add up. -/
instance : AddCommMonoid Tally where
  add_assoc x y z := by
    change Tally.add (Tally.add x y) z = Tally.add x (Tally.add y z)
    simp only [Tally.add, Nat.add_assoc]
  zero_add x := by
    change Tally.add Tally.zero x = x
    simp only [Tally.add, Tally.zero, Nat.zero_add]
  add_zero x := rfl
  add_comm x y := by
    change Tally.add x y = Tally.add y x
    simp only [Tally.add, Nat.add_comm]
  nsmul := nsmulRec

theorem add_eq (x y : Tally) : x + y = Tally.add x y := rfl

theorem countDiff_add (x y : Tally) (d : Diff) : (x + y).countDiff d = x + y.countDiff d := by
  simp only [add_eq, Tally.add, countDiff, Nat.add_assoc]

end Tally

namespace Recorder

/-- The progress `p` is the progress `q` after earlier work, which has finished the tasks `done` and
is counted in `tally`. The article may wait for another task. -/
structure Progress.Resumes (part : Nat) (tally : Tally) (done : List (Task Diff)) (q p : Progress) :
    Prop where
  article_eq : p.article = { q.article with nextPart := part }
  tally_eq : p.tally = tally + q.tally
  done_eq : p.done = done ++ q.done

/-- Work that succeeds, or breaks off with one error, on both sides of `Resumes`. -/
inductive Progress.Alike (part : Nat) (tally : Tally) (done : List (Task Diff)) :
    Except (Progress × RecorderError) Progress → Except (Progress × RecorderError) Progress → Prop where
  | ok {q p : Progress} (h : q.Resumes part tally done p) : Alike part tally done (.ok q) (.ok p)
  | error {q p : Progress} (h : q.Resumes part tally done p) (e : RecorderError) :
    Alike part tally done (.error (q, e)) (.error (p, e))

namespace Progress.Resumes

variable {settings : Settings} {part : Nat} {tally : Tally} {done : List (Task Diff)} {q p : Progress}

theorem emit (h : q.Resumes part tally done p) (task : Option (Task Diff)) :
    (q.emit task).Resumes part tally done (p.emit task) := by
  cases task with
  | none => exact h
  | some task =>
    refine ⟨h.article_eq, ?_, ?_⟩
    · simp only [Progress.emit, h.tally_eq]
      rfl
    · simp only [Progress.emit, h.done_eq, List.append_assoc]

theorem store (h : q.Resumes part tally done p) (text : Text) (diff : Diff) :
    (Recorder.store q text diff).Resumes part tally done (Recorder.store p text diff) := by
  obtain ⟨harticle, htally, hdone⟩ := h
  have houtput : p.article.output = q.article.output := by rw [harticle]
  rw [Recorder.store, Recorder.store, houtput]
  cases q.article.output.push diff with
  | mk finished output =>
    apply emit
    refine ⟨?_, ?_, hdone⟩
    · simp only [harticle]
    · simp only [htally, Tally.countDiff_add]

/-- Behind earlier work a revision leads to the same progress, or it breaks off with the same error. -/
theorem alike_record (settings : Settings) (h : q.Resumes part tally done p) (r : Revision) :
    Alike part tally done (Recorder.record settings q r) (Recorder.record settings p r) := by
  obtain ⟨article, u, notices, tasks⟩ := q
  obtain ⟨article', u', notices', tasks'⟩ := p
  obtain ⟨harticle, htally, hdone⟩ := h
  dsimp only at harticle htally hdone
  subst harticle htally hdone
  cases hadmit : admitText settings.surrogates r.text with
  | none =>
    simp only [Recorder.record, hadmit]
    exact .ok ⟨rfl, rfl, rfl⟩
  | some text =>
    have hpatch : patchFor settings { article with nextPart := part } text =
        patchFor settings article text := rfl
    simp only [Recorder.record, hadmit, hpatch]
    by_cases hempty : (patchFor settings article text).isEmpty = true
    · simp only [if_pos hempty]
      refine .ok ⟨rfl, ?_, rfl⟩
      simp only [Progress.notify, Tally.add_eq, Tally.add, Nat.add_assoc]
    · simp only [if_neg hempty]
      have hdiff : diffFor settings { article with nextPart := part } r text
          (patchFor settings article text) =
          diffFor settings article r text (patchFor settings article text) := rfl
      rw [hdiff]
      cases diffFor settings article r text (patchFor settings article text) with
      | error e =>
        apply Alike.error
        refine ⟨rfl, ?_, rfl⟩
        simp only [Tally.add_eq, Tally.add, Nat.add_assoc]
      | ok diff =>
        apply Alike.ok
        apply store
        refine ⟨rfl, ?_, rfl⟩
        simp only [Tally.add_eq, Tally.add, Nat.add_assoc]

theorem alike_recordAll (settings : Settings) (h : q.Resumes part tally done p)
    (revisions : List Revision) :
    Alike part tally done (Recorder.recordAll settings q revisions)
      (Recorder.recordAll settings p revisions) := by
  induction revisions generalizing q p with
  | nil => exact .ok h
  | cons r revisions ih =>
    have hfirst := h.alike_record settings r
    rw [Recorder.recordAll, Recorder.recordAll, List.foldlM_cons, List.foldlM_cons]
    generalize Recorder.record settings q r = x at hfirst ⊢
    generalize Recorder.record settings p r = y at hfirst ⊢
    cases hfirst with
    | ok h' => exact ih h'
    | error h' e => exact .error h' e

theorem recordAll (h : q.Resumes part tally done p) {revisions : List Revision} {q' : Progress}
    (hq : Recorder.recordAll settings q revisions = .ok q') :
    ∃ p', Recorder.recordAll settings p revisions = .ok p' ∧ q'.Resumes part tally done p' := by
  have halike := h.alike_recordAll settings revisions
  rw [hq] at halike
  cases hp : Recorder.recordAll settings p revisions with
  | error e =>
    rw [hp] at halike
    cases halike
  | ok p' =>
    rw [hp] at halike
    cases halike with
    | ok h' => exact ⟨p', rfl, h'⟩

theorem conclude (h : q.Resumes part tally done p) :
    (Recorder.conclude q).Resumes part tally done (Recorder.conclude p) := by
  have houtput : p.article.output = q.article.output := by rw [h.article_eq]
  obtain ⟨harticle, htally, hdone⟩ := h.emit q.article.output.finish
  rw [Recorder.conclude, Recorder.conclude, houtput]
  exact ⟨harticle, htally, hdone⟩

end Progress.Resumes

/-- Recording leaves the index of the next task alone: progress goes on from itself in this respect. -/
theorem nextPart_recordAll {settings : Settings} {p p' : Progress} {revisions : List Revision}
    (h : recordAll settings p revisions = .ok p') : p'.article.nextPart = p.article.nextPart := by
  have hself : p.Resumes p.article.nextPart 0 [] p := ⟨rfl, (zero_add _).symm, rfl⟩
  obtain ⟨q, hq, hresumes⟩ := hself.recordAll h
  have hsame : q = p' := Except.ok.inj (hq.symm.trans h)
  rw [hsame] at hresumes
  have hpart := congrArg Article.nextPart hresumes.article_eq
  exact hpart

/-! ## Whole tasks -/

/-- The recorder `r'` is where `r` is, but for earlier work that is counted in `tally`. -/
structure Resumes (tally : Tally) (r r' : Recorder) : Prop where
  state_eq : r'.state = r.state
  tally_eq : r'.tally = tally + r.tally

structure Answer.Resumes (tally : Tally) (a a' : Answer) : Prop where
  result_eq : a'.result = a.result
  recorder : a.recorder.Resumes tally a'.recorder

theorem settle_of_resumes {p p' : Progress} {tally : Tally}
    (h : p.Resumes p.article.nextPart tally [] p') (kind : TaskKind) :
    (settle kind p).Resumes tally (settle kind p') := by
  have harticle : p'.article = p.article := h.article_eq
  cases hends : kind.endsArticle with
  | true =>
    rw [settle_of_ends hends, settle_of_ends hends]
    exact ⟨congrArg Except.ok h.conclude.done_eq, rfl, h.conclude.tally_eq⟩
  | false =>
    rw [settle_of_open hends, settle_of_open hends, harticle]
    exact ⟨congrArg Except.ok h.done_eq, rfl, h.tally_eq⟩

/-- What an admitted task leads to, a failure included, does not depend on what was counted or told
before. -/
theorem resumes_processAdmitted (settings : Settings) (tally u : Tally) (article : Article)
    (notices notices' : List Notice) (task : Task Revision) :
    (processAdmitted settings u article notices task).Resumes tally
      (processAdmitted settings (tally + u) article notices' task) := by
  have hstart : Progress.Resumes article.nextPart tally [] ⟨article, u, notices, []⟩
      ⟨article, tally + u, notices', []⟩ := ⟨rfl, rfl, rfl⟩
  have halike := hstart.alike_recordAll settings (task.items.mergeSort Revision.notAfter)
  cases hq : recordAll settings ⟨article, u, notices, []⟩
      (task.items.mergeSort Revision.notAfter) with
  | ok q =>
    obtain ⟨p, hp, hresumes⟩ := hstart.recordAll hq
    rw [processAdmitted_eq hq, processAdmitted_eq hp]
    have hpart : article.nextPart = q.article.nextPart := (nextPart_recordAll hq).symm
    rw [hpart] at hresumes
    exact settle_of_resumes hresumes task.kind
  | error e =>
    rw [hq] at halike
    generalize hp : recordAll settings ⟨article, tally + u, notices', []⟩
      (task.items.mergeSort Revision.notAfter) = y at halike
    cases halike with
    | error h e =>
      simp only [processAdmitted, hq, hp, h.article_eq]
      exact ⟨rfl, rfl, h.tally_eq⟩

end Recorder
end EditHistory
