import EditHistory.Archive.Recorder
import EditHistory.Proofs.Archive.Stored
import EditHistory.Proofs.Archive.Task
import EditHistory.Proofs.Patch.Trivial
import EditHistory.Proofs.Wire.Between
import EditHistory.Proofs.Result

/-! What the recorder does with the revisions of a task: it stores the versions that a history is
to keep, one diff each, and hands out the diffs in tasks. It does not fail. -/
namespace EditHistory

open Version

/-- An article after further versions are stored with the given diffs. -/
def Article.after (article : Article) (vs : List Version) (ds : List Diff) : Article :=
  { article with
    counter := article.counter + vs.length
    previous := lastText article.previous vs
    output := (article.output.pushAll ds).2 }

theorem Article.after_append (article : Article) (vs ws : List Version) (ds es : List Diff) :
    article.after (vs ++ ws) (ds ++ es) = (article.after vs ds).after ws es := by
  simp only [after, lastText_append, Portioner.pushAll_append, List.length_append, Nat.add_assoc]

/-- Counts a revision that comes in, and what is done with it on the way. -/
def Tally.countRevision (t : Tally) (noops drops replaced : Nat) : Tally :=
  { t with
    revisionsIn := t.revisionsIn + 1
    noopDrops := t.noopDrops + noops
    surrogateDrops := t.surrogateDrops + drops
    surrogatesReplaced := t.surrogatesReplaced + replaced }

namespace Recorder

variable {settings : Settings} {article : Article} {text : Text}

/-! ## One patch -/

theorem apply_patchFor (settings : Settings) (article : Article) (text : Text) :
    (patchFor settings article text).apply article.previous = .ok text := by
  rw [patchFor]
  split
  · exact Patch.apply_full text article.previous
  · exact (Alignment.sound_compute settings.minMatch article.previous text).apply_edits

theorem isFull_patchFor (settings : Settings) (article : Article) (text : Text) :
    (patchFor settings article text).head?.any Edit.isFull =
      decide (article.counter % settings.interval = 0) := by
  by_cases hinterval : article.counter % settings.interval = 0
  · rw [patchFor, if_pos hinterval, decide_eq_true hinterval]
    rfl
  · rw [patchFor, if_neg hinterval, decide_eq_false hinterval, Patch.isFull_between]

/-- A text is left out where no full diff is due and the text is the one stored last. -/
theorem isEmpty_patchFor (settings : Settings) (article : Article) (text : Text) :
    (patchFor settings article text).isEmpty = true ↔
      ¬ (article.counter % settings.interval = 0 ∨ text ≠ article.previous) := by
  by_cases hinterval : article.counter % settings.interval = 0
  · simp [patchFor, hinterval]
  · rw [patchFor, if_neg hinterval, List.isEmpty_iff, Patch.between_eq_nil_iff]
    simp [hinterval, eq_comm]

/-- A full patch leads to its text from anywhere, any other from the text stored last. -/
theorem apply_patchFor_of_full {base : Text}
    (h : (patchFor settings article text).head?.any Edit.isFull ∨ base = article.previous) :
    (patchFor settings article text).apply base = .ok text := by
  rcases h with hfull | rfl
  · rw [isFull_patchFor, decide_eq_true_eq] at hfull
    rw [patchFor, if_pos hfull, Patch.apply_full]
  · exact apply_patchFor settings article text

theorem exists_widths_patchFor (settings : Settings) (hvalid : text.hasUnpaired = false)
    (hprevious : article.previous.IsShort) (htext : text.IsShort) :
    ∃ w, Body.widths settings.codec.charset (patchFor settings article text) = .ok w := by
  have hprepare : ∃ w es,
      Body.prepare settings.codec.charset (patchFor settings article text) = .ok (w, es) := by
    rw [patchFor]
    split
    · exact Body.exists_prepare_full (fun _ => hvalid) htext
    · exact Body.exists_prepare_between (fun _ => hvalid) hprevious htext settings.minMatch
  obtain ⟨w, es, hprepare⟩ := hprepare
  refine ⟨w, ?_⟩
  rw [Body.widths, hprepare]
  rfl

theorem exists_diffFor (settings : Settings) (revision : Revision) (hvalid : text.hasUnpaired = false)
    (hprevious : article.previous.IsShort) (htext : text.IsShort) :
    ∃ d, diffFor settings article revision text (patchFor settings article text) = .ok d ∧
      d.counter = article.counter + 1 ∧ d.revisionId = revision.id ∧
      d.patch = patchFor settings article text := by
  obtain ⟨w, hwidths⟩ := exists_widths_patchFor settings hvalid hprevious htext
  have hverify : verify article (patchFor settings article text) text = .ok () := by
    rw [verify, apply_patchFor]
    exact if_pos rfl
  refine ⟨⟨article.counter + 1, revision.id, revision.timestamp, revision.comment,
    revision.contributor, revision.minor, patchFor settings article text, w⟩, ?_, rfl, rfl, rfl⟩
  simp only [diffFor, hwidths, hverify, Except.mapError, bind, Except.bind]
  cases settings.verify <;> rfl

/-! ## One revision -/

theorem admitted_singleton (mode : SurrogateMode) (r : Revision) :
    admitted mode [r] = ((admitText mode r.text).map (Version.mk r)).toList := by
  by_cases hunpaired : r.text.hasUnpaired
  · cases mode <;> simp [admitted, admitText, hunpaired]
  · have hvalid : r.text.hasUnpaired = false := by simpa using hunpaired
    cases mode <;> simp [admitted, admitText, hvalid, Text.replaceUnpaired_of_not_hasUnpaired hvalid]

theorem admitText_valid {mode : SurrogateMode} {t : Text} (h : admitText mode t = some text) :
    text.hasUnpaired = false ∧ text.length = t.length := by
  by_cases hunpaired : t.hasUnpaired = true
  · cases mode with
    | discard => simp [admitText, hunpaired] at h
    | replace =>
      simp only [admitText, hunpaired, if_true] at h
      obtain rfl := Option.some.inj h
      exact ⟨Text.hasUnpaired_replaceUnpaired t, Text.length_replaceUnpaired t⟩
  · simp only [admitText, if_neg hunpaired] at h
    obtain rfl := Option.some.inj h
    exact ⟨by simpa using hunpaired, rfl⟩

/-- Progress in which versions are stored with the given diffs. -/
structure Advances (settings : Settings) (p : Progress) (vs : List Version) (ds : List Diff)
    (p' : Progress) : Prop where
  stores : Stores settings.interval p.article.counter p.article.previous vs ds
  article_eq : p'.article = p.article.after vs ds
  done_eq : p'.done = p.done ++ (p.article.output.pushAll ds).1

theorem Advances.trans {p p' p'' : Progress} {vs ws : List Version} {ds es : List Diff}
    (h : Advances settings p vs ds p') (h' : Advances settings p' ws es p'') :
    Advances settings p (vs ++ ws) (ds ++ es) p'' where
  stores := h.stores.append (by simpa [h.article_eq, Article.after] using h'.stores)
  article_eq := by rw [Article.after_append, ← h.article_eq, h'.article_eq]
  done_eq := by
    rw [h'.done_eq, h.done_eq, h.article_eq, Portioner.pushAll_append, List.append_assoc]
    rfl

theorem Advances.congr {p q p' : Progress} {vs : List Version} {ds : List Diff}
    (h : Advances settings q vs ds p') (harticle : q.article = p.article) (hdone : q.done = p.done) :
    Advances settings p vs ds p' where
  stores := harticle ▸ h.stores
  article_eq := harticle ▸ h.article_eq
  done_eq := harticle ▸ hdone ▸ h.done_eq

theorem Advances.none {p p' : Progress} (harticle : p'.article = p.article) (hdone : p'.done = p.done) :
    Advances settings p [] [] p' where
  stores := .nil
  article_eq := harticle
  done_eq := by simp [hdone, Portioner.pushAll]

@[simp] theorem article_emit (p : Progress) (done : Option (Task Diff)) :
    (p.emit done).article = p.article := by
  cases done <;> rfl

@[simp] theorem done_emit (p : Progress) (done : Option (Task Diff)) :
    (p.emit done).done = p.done ++ done.toList := by
  cases done <;> simp [Progress.emit]

theorem done_conclude (p : Progress) :
    (conclude p).done = p.done ++ p.article.output.finish.toList :=
  done_emit p p.article.output.finish

theorem advances_store {p : Progress} {v : Version} {d : Diff}
    (hcounter : d.counter = p.article.counter + 1) (hid : d.revisionId = v.revision.id)
    (hpatch : d.patch = patchFor settings p.article v.text) :
    Advances settings p [v] [d] (store p v.text d) where
  stores := by
    refine .cons hcounter hid ?_ ?_ .nil
    · rw [Diff.isFull, hpatch, isFull_patchFor]
    · intro base hbase
      rw [Diff.isFull, hpatch] at hbase
      rw [hpatch, apply_patchFor_of_full hbase]
  article_eq := by simp [store, Article.after, Portioner.pushAll, lastText]
  done_eq := by simp [store, Portioner.pushAll]

/-- A recorded revision is left out, which is noted and counted once, or its diff is stored. -/
theorem record_cases {p p' : Progress} {r : Revision} (h : record settings p r = .ok p') :
    (∃ noops drops replaced notice, noops + drops = 1 ∧
      p' = { p with tally := p.tally.countRevision noops drops replaced }.notify notice) ∨
    ∃ replaced text d, diffFor settings p.article r text (patchFor settings p.article text) = .ok d ∧
      p' = store { p with tally := p.tally.countRevision 0 0 replaced } text d := by
  rw [record] at h
  split at h
  · exact .inl ⟨0, 1, 0, _, rfl, (Except.ok.inj h).symm⟩
  · rename_i text _
    dsimp only at h
    split at h
    · exact .inl ⟨1, 0, _, _, rfl, (Except.ok.inj h).symm⟩
    · split at h
      · cases h
      · rename_i d hdiff
        exact .inr ⟨_, text, d, hdiff, (Except.ok.inj h).symm⟩

/-- The versions that a history is to keep of further revisions. -/
abbrev kept (settings : Settings) (article : Article) (revisions : List Revision) : List Version :=
  select settings.interval article.counter article.previous (admitted settings.surrogates revisions)

theorem exists_record (settings : Settings) {p : Progress} {r : Revision}
    (hprevious : p.article.previous.IsShort) (htext : r.text.IsShort) :
    ∃ p' ds, record settings p r = .ok p' ∧ Advances settings p (kept settings p.article [r]) ds p' := by
  rw [kept, admitted_singleton]
  cases hadmit : admitText settings.surrogates r.text with
  | none =>
    refine ⟨_, [], by simp only [record, hadmit]; rfl, ?_⟩
    exact .none rfl rfl
  | some text =>
    obtain ⟨hvalid, hlen⟩ := admitText_valid hadmit
    have hshort : text.IsShort := by rwa [Text.IsShort, hlen]
    by_cases hempty : (patchFor settings p.article text).isEmpty = true
    · refine ⟨_, [], by simp only [record, hadmit, if_pos hempty]; rfl, ?_⟩
      simp only [Option.map_some, Option.toList_some, select]
      rw [if_neg ((isEmpty_patchFor settings p.article text).mp hempty)]
      exact .none rfl rfl
    · have hkeep := Decidable.not_not.mp (mt (isEmpty_patchFor settings p.article text).mpr hempty)
      obtain ⟨d, hdiff, hcounter, hid, hpatch⟩ :=
        exists_diffFor settings r hvalid hprevious hshort
      refine ⟨_, [d], by simp only [record, hadmit, if_neg hempty, hdiff]; rfl, ?_⟩
      simp only [Option.map_some, Option.toList_some, select]
      rw [if_pos hkeep]
      refine Advances.congr (advances_store (v := ⟨r, text⟩) ?_ hid ?_) rfl rfl
      · exact hcounter
      · exact hpatch

/-! ## All revisions of a task -/

theorem isShort_of_mem_admitted {mode : SurrogateMode} {revisions : List Revision}
    (htexts : ∀ r ∈ revisions, r.text.IsShort) {v : Version} (h : v ∈ admitted mode revisions) :
    v.text.IsShort := by
  cases mode with
  | discard =>
    obtain ⟨r, hr, rfl⟩ := List.mem_map.mp h
    exact htexts r (List.mem_of_mem_filter hr)
  | replace =>
    obtain ⟨r, hr, rfl⟩ := List.mem_map.mp h
    rw [Text.IsShort, Text.length_replaceUnpaired]
    exact htexts r hr

/-- The text stored last stays short. -/
theorem isShort_previous_after {revisions : List Revision} (ds : List Diff)
    (hprevious : article.previous.IsShort) (htexts : ∀ r ∈ revisions, r.text.IsShort) :
    (article.after (kept settings article revisions) ds).previous.IsShort := by
  refine lastText_mem hprevious ?_
  intro v hv
  exact isShort_of_mem_admitted htexts ((select_sublist ..).subset hv)

theorem kept_nil (settings : Settings) (article : Article) : kept settings article [] = [] := by
  cases h : settings.surrogates <;> simp [kept, h, admitted, select]

theorem kept_append (settings : Settings) (article : Article) (xs ys : List Revision) (ds : List Diff) :
    kept settings article (xs ++ ys) = kept settings article xs ++
      kept settings (article.after (kept settings article xs) ds) ys := by
  simp only [kept, admitted_append, select_append, Article.after]

theorem exists_recordAll (settings : Settings) {p : Progress} {revisions : List Revision}
    (hprevious : p.article.previous.IsShort) (htexts : ∀ r ∈ revisions, r.text.IsShort) :
    ∃ p' ds, recordAll settings p revisions = .ok p' ∧
      Advances settings p (kept settings p.article revisions) ds p' := by
  induction revisions generalizing p with
  | nil => exact ⟨p, [], rfl, (kept_nil settings p.article).symm ▸ .none rfl rfl⟩
  | cons r revisions ih =>
    obtain ⟨p₁, ds, hrecord, hfirst⟩ :=
      exists_record settings hprevious (htexts r (by simp))
    have hnext : p₁.article.previous.IsShort := by
      rw [hfirst.article_eq]
      exact isShort_previous_after ds hprevious (by simpa using htexts r (by simp))
    obtain ⟨p₂, es, hrest, hsecond⟩ := ih hnext fun r' h => htexts r' (by simp [h])
    refine ⟨p₂, ds ++ es, ?_, ?_⟩
    · rw [recordAll, List.foldlM_cons, hrecord]
      exact hrest
    · rw [hfirst.article_eq] at hsecond
      rw [← List.singleton_append, kept_append settings p.article [r] revisions ds]
      exact hfirst.trans hsecond

/-! ## One task -/

/-- The answer to a task once its revisions are recorded. -/
def settle (kind : TaskKind) (p : Progress) : Answer :=
  if kind.endsArticle then ⟨⟨.idle, (conclude p).tally⟩, (conclude p).notices, .ok (conclude p).done⟩
  else
    ⟨⟨.collecting { p.article with nextPart := Task.partAfter p.article.nextPart }, p.tally⟩, p.notices,
      .ok p.done⟩

theorem settle_of_ends {kind : TaskKind} (h : kind.endsArticle = true) (p : Progress) :
    settle kind p = ⟨⟨.idle, (conclude p).tally⟩, (conclude p).notices, .ok (conclude p).done⟩ :=
  if_pos h

theorem settle_of_open {kind : TaskKind} (h : kind.endsArticle = false) (p : Progress) :
    settle kind p =
      ⟨⟨.collecting { p.article with nextPart := Task.partAfter p.article.nextPart }, p.tally⟩, p.notices,
        .ok p.done⟩ :=
  if_neg (ne_true_of_eq_false h)

theorem processAdmitted_eq {task : Task Revision} {tally : Tally} {notices : List Notice} {p : Progress}
    (h : recordAll settings ⟨article, tally, notices, []⟩ (task.items.mergeSort Revision.notAfter) =
      .ok p) : processAdmitted settings tally article notices task = settle task.kind p := by
  simp only [processAdmitted, h, settle, conclude]
  split
  · cases p.article.output.finish <;> rfl
  · rfl

/-- A task of an article that goes on leaves the recorder with the article behind it, and hands out
the tasks that are done. -/
theorem exists_processAdmitted (settings : Settings) (task : Task Revision) (tally : Tally)
    (notices : List Notice)
    (hsorted : task.items.Pairwise fun x y => x.notAfter y)
    (hprevious : article.previous.IsShort) (htexts : ∀ r ∈ task.items, r.text.IsShort) :
    ∃ ds,
      Stores settings.interval article.counter article.previous (kept settings article task.items) ds ∧
      (task.kind.endsArticle = false →
        (processAdmitted settings tally article notices task).recorder.state =
          .collecting { article.after (kept settings article task.items) ds with
            nextPart := Task.partAfter article.nextPart } ∧
        (processAdmitted settings tally article notices task).result =
          .ok (article.output.pushAll ds).1) ∧
      (task.kind.endsArticle = true →
        (processAdmitted settings tally article notices task).result =
          .ok (article.output.tasksOf ds)) := by
  obtain ⟨p, ds, hrecord, hadvances⟩ :=
    exists_recordAll settings (p := ⟨article, tally, notices, []⟩) hprevious htexts
  have harticle : p.article = article.after (kept settings article task.items) ds :=
    hadvances.article_eq
  have hdone : p.done = (article.output.pushAll ds).1 := hadvances.done_eq
  rw [processAdmitted_eq ((List.mergeSort_of_pairwise hsorted).symm ▸ hrecord)]
  refine ⟨ds, hadvances.stores, ?_, ?_⟩
  · intro hkind
    simp only [settle_of_open hkind, harticle, hdone, and_true]
    rfl
  · intro hkind
    simp only [settle_of_ends hkind, done_conclude, harticle, hdone, Portioner.tasksOf_eq]
    rfl

end Recorder
end EditHistory
