import EditHistory.Proofs.Archive.Calls
import EditHistory.Proofs.Archive.History
import EditHistory.Proofs.Archive.Resume

/-! The portions in which the revisions of an article come in. Neither the places where a history is
cut into tasks nor the order of the revisions within a task shows in what comes out. -/
namespace EditHistory

/-! ## Chronological order -/

theorem Instant.notAfter_trans {x y z : Instant} (hxy : x.notAfter y) (hyz : y.notAfter z) :
    x.notAfter z := by
  simp only [notAfter, Bool.or_eq_true, Bool.and_eq_true, decide_eq_true_eq, beq_iff_eq] at *
  omega

theorem Instant.notAfter_total (x y : Instant) : x.notAfter y ∨ y.notAfter x := by
  simp only [notAfter, Bool.or_eq_true, Bool.and_eq_true, decide_eq_true_eq, beq_iff_eq]
  omega

theorem Instant.notAfter_antisymm {x y : Instant} (hxy : x.notAfter y) (hyx : y.notAfter x) : x = y := by
  obtain ⟨s, n⟩ := x
  obtain ⟨s', n'⟩ := y
  simp only [notAfter, Bool.or_eq_true, Bool.and_eq_true, decide_eq_true_eq, beq_iff_eq] at hxy hyx
  obtain ⟨rfl, rfl⟩ : s = s' ∧ n = n' := by omega
  rfl

namespace Revision

theorem notAfter_iff {x y : Revision} : x.notAfter y ↔
    x.timestamp.notAfter y.timestamp ∧ (x.timestamp = y.timestamp → x.sequence ≤ y.sequence) := by
  rw [notAfter]
  by_cases h : x.timestamp = y.timestamp
  · rw [if_pos h, decide_eq_true_eq, h]
    have hself : y.timestamp.notAfter y.timestamp := or_self_iff.mp (Instant.notAfter_total _ _)
    exact ⟨fun hle => ⟨hself, fun _ => hle⟩, fun hle => hle.2 rfl⟩
  · rw [if_neg h]
    exact ⟨fun hle => ⟨hle, fun heq => absurd heq h⟩, fun hle => hle.1⟩

theorem notAfter_trans (x y z : Revision) (hxy : x.notAfter y) (hyz : y.notAfter z) : x.notAfter z := by
  obtain ⟨htime, hsequence⟩ := notAfter_iff.mp hxy
  obtain ⟨htime', hsequence'⟩ := notAfter_iff.mp hyz
  refine notAfter_iff.mpr ⟨Instant.notAfter_trans htime htime', fun heq => ?_⟩
  -- equal times at both ends leave no room for another time between them
  have hmiddle : x.timestamp = y.timestamp := Instant.notAfter_antisymm htime (heq ▸ htime')
  exact Nat.le_trans (hsequence hmiddle) (hsequence' (hmiddle.symm.trans heq))

theorem notAfter_total (x y : Revision) : (x.notAfter y || y.notAfter x) = true := by
  rw [Bool.or_eq_true, notAfter_iff, notAfter_iff]
  by_cases h : x.timestamp = y.timestamp
  · rw [h]
    have hself : y.timestamp.notAfter y.timestamp := or_self_iff.mp (Instant.notAfter_total _ _)
    rcases Nat.le_total x.sequence y.sequence with hle | hle
    · exact .inl ⟨hself, fun _ => hle⟩
    · exact .inr ⟨hself, fun _ => hle⟩
  · rcases Instant.notAfter_total x.timestamp y.timestamp with hle | hle
    · exact .inl ⟨hle, fun heq => absurd heq h⟩
    · exact .inr ⟨hle, fun heq => absurd heq.symm h⟩

/-- What the chronological order goes by. -/
def key (x : Revision) : Instant × Nat := (x.timestamp, x.sequence)

theorem key_eq_of_notAfter {x y : Revision} (hxy : x.notAfter y) (hyx : y.notAfter x) :
    x.key = y.key := by
  obtain ⟨htime, hsequence⟩ := notAfter_iff.mp hxy
  obtain ⟨htime', hsequence'⟩ := notAfter_iff.mp hyx
  have heq : x.timestamp = y.timestamp := Instant.notAfter_antisymm htime htime'
  exact Prod.ext heq (Nat.le_antisymm (hsequence heq) (hsequence' heq.symm))

theorem pairwise_mergeSort_notAfter (xs : List Revision) :
    (xs.mergeSort notAfter).Pairwise fun x y => x.notAfter y :=
  List.pairwise_mergeSort notAfter_trans notAfter_total xs

/-- Revisions with keys of their own have one chronological order. -/
theorem mergeSort_eq_of_perm {xs ys : List Revision} (hkeys : (ys.map key).Nodup)
    (hsorted : ys.Pairwise fun x y => x.notAfter y) (h : xs.Perm ys) : xs.mergeSort notAfter = ys := by
  refine List.Perm.eq_of_pairwise ?_ (pairwise_mergeSort_notAfter xs) hsorted
    ((List.mergeSort_perm xs notAfter).trans h)
  intro x y hx hy hxy hyx
  have hx' : x ∈ ys := h.mem_iff.mp (List.mem_mergeSort.mp hx)
  exact List.inj_on_of_nodup_map hkeys hx' hy (key_eq_of_notAfter hxy hyx)

end Revision

/-! ## Portions of a history -/

/-- The kind of a task that starts its article or not and ends it or not. -/
def TaskKind.of : (starts ends : Bool) → TaskKind
  | true, true => .full
  | true, false => .first
  | false, false => .middle
  | false, true => .last

@[simp] theorem TaskKind.startsArticle_of (starts ends : Bool) :
    (of starts ends).startsArticle = starts := by
  cases starts <;> cases ends <;> rfl

@[simp] theorem TaskKind.endsArticle_of (starts ends : Bool) : (of starts ends).endsArticle = ends := by
  cases starts <;> cases ends <;> rfl

namespace Task

variable {α : Type} [Sized α]

/-- The tasks of an article from a part on, the first of which may start it: one for each portion of the
items, the last of which closes the article. -/
def portionsFrom (heading : Heading) (part : Nat) (starts : Bool) : List (List α) → List (Task α)
  | [] => []
  | [items] => [.ofItems heading part (.of starts true) items]
  | items :: next :: rest =>
    .ofItems heading part (.of starts false) items
      :: portionsFrom heading (partAfter part) false (next :: rest)

/-- An article in tasks of the given portions. -/
def portions (heading : Heading) (items : List (List α)) : List (Task α) :=
  portionsFrom heading 0 true items

end Task

/-- The portions are the segments of a list, each in an order of its own. -/
def Cuts {α : Type} (portions : List (List α)) (items : List α) : Prop :=
  ∃ segments : List (List α), segments.flatten = items ∧ List.Forall₂ List.Perm portions segments

theorem Cuts.flatten_perm {α : Type} {portions : List (List α)} {items : List α}
    (h : Cuts portions items) : portions.flatten.Perm items := by
  obtain ⟨segments, rfl, hperm⟩ := h
  exact List.Perm.flatten_congr hperm

/-- Brought into order one by one, the portions of a history join to the history. -/
theorem flatten_mergeSort_of_cuts {portions : List (List Revision)} {history : List Revision}
    (hkeys : (history.map Revision.key).Nodup) (hsorted : history.Pairwise fun x y => x.notAfter y)
    (h : Cuts portions history) : (portions.map (·.mergeSort Revision.notAfter)).flatten = history := by
  obtain ⟨segments, rfl, hperm⟩ := h
  induction hperm with
  | nil => rfl
  | @cons portion segment portions segments hfirst _ ih =>
    rw [List.flatten_cons, List.map_append, List.nodup_append'] at hkeys
    rw [List.flatten_cons, List.pairwise_append] at hsorted
    rw [List.map_cons, List.flatten_cons, List.flatten_cons, ih hkeys.2.1 hsorted.2.1,
      Revision.mergeSort_eq_of_perm hkeys.1 hsorted.1 hfirst]

namespace Recorder

variable {settings : Settings} {heading : Heading} {part k : Nat} {starts : Bool} {r : Recorder}
  {article : Article}

theorem recordAll_append {p q : Progress} {xs ys : List Revision}
    (hfirst : recordAll settings p xs = .ok q) :
    recordAll settings p (xs ++ ys) = recordAll settings q ys := by
  rw [recordAll, List.foldlM_append]
  change (recordAll settings p xs >>= fun q => recordAll settings q ys) = _
  rw [hfirst]
  rfl

/-- A portion that comes in adds to the progress on the article what its revisions add to it. -/
theorem exists_process_portion {p : Progress} {items : List Revision}
    (hready : Ready settings heading part r starts article) (hsound : article.Sound)
    (harticle : p.article = { article with nextPart := k }) (htally : p.tally = r.tally)
    (ends : Bool) (htexts : ∀ x ∈ items, x.text.IsShort) :
    let task := Task.ofItems heading part (.of starts ends) items
    ∃ q p', r.process settings task = settle task.kind q ∧ q.article.Sound ∧
      q.article.heading = heading ∧ q.article.nextPart = part ∧
      recordAll settings p (items.mergeSort Revision.notAfter) = .ok p' ∧ q.Resumes k 0 p.done p' := by
  intro task
  have hheading : task.heading = heading := rfl
  have hstarts : task.kind.startsArticle = starts := TaskKind.startsArticle_of starts ends
  obtain ⟨notices, hprocess⟩ := hready.exists_process_eq hheading rfl hstarts
  obtain ⟨q, ds, hrecord, hadvances, hq, hsettle⟩ :=
    exists_settle settings task r.tally notices hsound htexts
  have hresumes : Progress.Resumes k 0 p.done ⟨article, r.tally, notices, []⟩ p :=
    ⟨harticle, by rw [htally, zero_add], by rw [List.append_nil]⟩
  obtain ⟨p', hp', hresumes'⟩ := hresumes.recordAll hrecord
  refine ⟨q, p', hprocess.trans hsettle, hq, ?_, ?_, hp', hresumes'⟩
  · rw [hadvances.article_eq]
    exact hready.heading_eq
  · rw [hadvances.article_eq]
    exact hready.nextPart_eq

/-- The last portion concludes the article. -/
theorem process_closing {items : List Revision} {p q : Progress}
    (hready : Ready settings heading part r starts article) (hsound : article.Sound)
    (harticle : p.article = { article with nextPart := k }) (htally : p.tally = r.tally)
    (htexts : ∀ x ∈ items, x.text.IsShort)
    (hrecord : recordAll settings p (items.mergeSort Revision.notAfter) = .ok q) :
    let a := r.process settings (.ofItems heading part (.of starts true) items)
    a.recorder = ⟨.idle, (conclude q).tally⟩ ∧ a.error? = none ∧ p.done ++ a.done = (conclude q).done := by
  intro a
  obtain ⟨q₁, p₁, hprocess, -, -, -, hp₁, hresumes⟩ :=
    exists_process_portion hready hsound harticle htally true htexts
  obtain rfl : p₁ = q := Except.ok.inj (hp₁.symm.trans hrecord)
  obtain ⟨-, htotal, hdone⟩ := hresumes.conclude
  have ha : a = ⟨⟨.idle, (conclude q₁).tally⟩, (conclude q₁).notices, .ok (conclude q₁).done⟩ :=
    hprocess.trans (settle_of_ends (TaskKind.endsArticle_of starts true) q₁)
  rw [ha, htotal, zero_add, hdone]
  exact ⟨rfl, rfl, rfl⟩

/-- Any other portion leaves the article to the next one. -/
theorem exists_process_open {items : List Revision} {p : Progress}
    (hready : Ready settings heading part r starts article) (hsound : article.Sound)
    (harticle : p.article = { article with nextPart := k }) (htally : p.tally = r.tally)
    (htexts : ∀ x ∈ items, x.text.IsShort) :
    let a := r.process settings (.ofItems heading part (.of starts false) items)
    ∃ article' p', Ready settings heading (Task.partAfter part) a.recorder false article' ∧
      article'.Sound ∧ p'.article = { article' with nextPart := k } ∧ p'.tally = a.recorder.tally ∧
      recordAll settings p (items.mergeSort Revision.notAfter) = .ok p' ∧
      a.error? = none ∧ p.done ++ a.done = p'.done := by
  intro a
  obtain ⟨q, p', hprocess, hq, hheading, hpart, hp', hresumes⟩ :=
    exists_process_portion hready hsound harticle htally false htexts
  have ha : a = ⟨⟨.collecting { q.article with nextPart := Task.partAfter q.article.nextPart },
      q.tally⟩, q.notices, .ok q.done⟩ :=
    hprocess.trans (settle_of_open (TaskKind.endsArticle_of starts false) q)
  rw [ha]
  refine ⟨{ q.article with nextPart := Task.partAfter q.article.nextPart }, p', ?_, ⟨hq.short,
    hq.valid, hq.heading_eq⟩, hresumes.article_eq, hresumes.tally_eq.trans (zero_add _), hp', rfl,
    hresumes.done_eq.symm⟩
  exact .next rfl hheading (congrArg Task.partAfter hpart)

/-- The portions from a part on lead to what the revisions in them lead to when they are recorded
one after another. -/
theorem answers_portionsFrom {portions : List (List Revision)} {p q : Progress} (hne : portions ≠ [])
    (hready : Ready settings heading part r starts article) (hsound : article.Sound)
    (harticle : p.article = { article with nextPart := k }) (htally : p.tally = r.tally)
    (htexts : ∀ xs ∈ portions, ∀ x ∈ xs, x.text.IsShort)
    (hrecord : recordAll settings p (portions.map (·.mergeSort Revision.notAfter)).flatten = .ok q) :
    p.done ++ (r.answers settings ((Task.portionsFrom heading part starts portions).map .process)).flatMap
        Answer.done = (conclude q).done ∧
      (r.answers settings ((Task.portionsFrom heading part starts portions).map .process)).filterMap
        Answer.error? = [] ∧
      r.after settings ((Task.portionsFrom heading part starts portions).map .process) =
        ⟨.idle, (conclude q).tally⟩ := by
  fun_induction Task.portionsFrom heading part starts portions generalizing r article p with
  | case1 => exact absurd rfl hne
  | case2 part starts items =>
    have hlast : recordAll settings p (items.mergeSort Revision.notAfter) = .ok q := by
      simpa using hrecord
    obtain ⟨hrecorder, herror, hdone⟩ :=
      process_closing hready hsound harticle htally (htexts items (by simp)) hlast
    refine ⟨?_, ?_, ?_⟩
    · simpa [answers, answer] using hdone
    · simp [answers, answer, herror]
    · simpa [after, answer] using hrecorder
  | case3 part starts items next rest ih =>
    obtain ⟨article', p', hready', hsound', harticle', htally', hp', herror, hdone⟩ :=
      exists_process_open hready hsound harticle htally (htexts items (by simp))
    rw [List.map_cons, List.flatten_cons, recordAll_append hp'] at hrecord
    obtain ⟨hrest, herrors, hafter⟩ := ih (List.cons_ne_nil next rest) hready' hsound' harticle' htally'
      (fun xs hxs => htexts xs (by simp [hxs])) hrecord
    refine ⟨?_, ?_, hafter⟩
    · rw [← hrest, ← hdone]
      simp [answers, answer]
    · simpa [answers, answer, herror] using herrors

/-- The order of the revisions and the places where they are cut make no difference. However the
history of an article is cut into consecutive portions, and in whatever order the revisions of a
portion come, a new recorder hands out the same tasks, ends with the same counts, refuses nothing
and is idle afterwards. No two revisions have the same time and sequence number. The portions are numbered
in words, and there may be more of them than words. -/
theorem answers_portions {r : Recorder} (hcreate : create settings = .ok r) (heading : Heading)
    (history : List Revision) (hkeys : (history.map Revision.key).Nodup)
    (htexts : ∀ x ∈ history, 3 * x.text.length < 1 <<< 31) :
    ∃ tasks tally, ∀ portions, portions ≠ [] → Cuts portions (history.mergeSort Revision.notAfter) →
      let calls := (Task.portions heading portions).map .process
      (r.answers settings calls).flatMap Answer.done = tasks ∧
        (r.answers settings calls).filterMap Answer.error? = [] ∧
        r.after settings calls = ⟨.idle, tally⟩ := by
  obtain ⟨-, rfl⟩ := eq_start_of_create hcreate
  have hperm : (history.mergeSort Revision.notAfter).Perm history := List.mergeSort_perm _ _
  have hsound : (Article.start heading settings.outputLimit).Sound := sound_start heading _
  obtain ⟨q, -, hrecord, -⟩ := exists_recordAll settings
    (p := ⟨Article.start heading settings.outputLimit, .zero, [], []⟩) hsound.short
    fun x hx => Text.isShort_of_lt (htexts x (hperm.mem_iff.mp hx))
  refine ⟨(conclude q).done, (conclude q).tally, ?_⟩
  intro portions hne hcuts
  have hall : portions.flatten.Perm history := hcuts.flatten_perm.trans hperm
  have hsegments : ∀ xs ∈ portions, ∀ x ∈ xs, x.text.IsShort := fun xs hxs x hx =>
    Text.isShort_of_lt (htexts x (hall.mem_iff.mp (List.mem_flatten_of_mem hxs hx)))
  refine answers_portionsFrom (k := 0) (p := ⟨Article.start heading settings.outputLimit, .zero, [], []⟩)
    hne (.start rfl) hsound rfl rfl hsegments ?_
  rwa [flatten_mergeSort_of_cuts ((hperm.map Revision.key).nodup_iff.mpr hkeys)
    (Revision.pairwise_mergeSort_notAfter history) hcuts]

/-- Two revisions of one time in two tasks, and in a task in the wrong order. -/
theorem answers_portions_swapped :
    let old : Revision := ⟨0, 11, ⟨5, 0⟩, [0x61], "", .anonymous "::1", false⟩
    let new : Revision := ⟨1, 12, ⟨5, 0⟩, [0x61, 0x62], "", .anonymous "::1", false⟩
    let apart := (Task.portions ⟨7, "Lean"⟩ [[old], [], [new]]).map .process
    let together := (Task.portions ⟨7, "Lean"⟩ [[new, old]]).map .process
    (start.answers .default apart).flatMap Answer.done =
        (start.answers .default together).flatMap Answer.done ∧
      start.after .default apart = start.after .default together := by
  intro old new apart together
  have hcreate : create .default = .ok start := rfl
  obtain ⟨tasks, tally, h⟩ := answers_portions hcreate ⟨7, "Lean"⟩ [old, new] (by decide) (by decide)
  rw [List.mergeSort_of_pairwise (by decide)] at h
  obtain ⟨hapart, -, hafter⟩ := h [[old], [], [new]] (by decide)
    ⟨[[old], [], [new]], rfl, .cons .rfl (.cons .rfl (.cons .rfl .nil))⟩
  obtain ⟨htogether, -, hafter'⟩ := h [[new, old]] (by decide)
    ⟨[[old, new]], rfl, .cons (.swap ..) .nil⟩
  exact ⟨hapart.trans htogether.symm, hafter.trans hafter'.symm⟩

end Recorder
end EditHistory
