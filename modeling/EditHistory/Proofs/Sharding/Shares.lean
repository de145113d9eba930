import EditHistory.Proofs.Sharding.Separation
import EditHistory.Sharding.Network

/-! Tasks dealt out to shards by their articles. Recorded share by share, they lead to what they lead
to when they are recorded one after another: the same tasks for every article, the same counts, and
the same errors in some order. -/
namespace EditHistory

theorem shardOf_lt (articleId : Nat) {shards : Nat} (h : 0 < shards) :
    shardOf articleId shards < shards := by
  rw [shardOf, max_eq_left h]
  exact Nat.mod_lt _ h

/-- The tasks that a shard gets. -/
def share (shards i : Nat) (tasks : List (Task Revision)) : List (Task Revision) :=
  tasks.filter fun t => shardOf t.heading.articleId shards = i

/-- Dealing out loses nothing. -/
theorem perm_flatMap_filter {α : Type} (f : α → Nat) (n : Nat) (xs : List α) :
    ((List.range n).flatMap fun i => xs.filter fun x => f x = i).Perm (xs.filter fun x => f x < n) := by
  induction n with
  | zero => simp
  | succ n ih =>
    have hbelow : (xs.filter fun x => f x < n + 1).filter (fun x => decide (f x < n)) =
        xs.filter fun x => f x < n := by
      rw [List.filter_filter]
      refine List.filter_congr fun x _ => ?_
      grind
    have hlast : (xs.filter fun x => f x < n + 1).filter (fun x => !decide (f x < n)) =
        xs.filter fun x => f x = n := by
      rw [List.filter_filter]
      refine List.filter_congr fun x _ => ?_
      grind
    have hsplit := List.filter_append_perm (fun x => decide (f x < n)) (xs.filter fun x => f x < n + 1)
    rw [hbelow, hlast] at hsplit
    rw [List.range_succ, List.flatMap_append, List.flatMap_singleton]
    exact (ih.append_right _).trans hsplit

namespace Recorder

variable {settings : Settings} {state : State} {tasks : List (Task Revision)}

theorem done_of_mem_effects (hstate : state.Sound)
    (htexts : ∀ task ∈ tasks, ∀ x ∈ task.items, x.text.IsShort) {e : Task Revision × Answer}
    (h : e ∈ effects settings state tasks) :
    e.1 ∈ tasks ∧ ∀ t ∈ e.2.done, t.heading.articleId = e.1.heading.articleId := by
  induction tasks generalizing state with
  | nil => simp [effects] at h
  | cons task tasks ih =>
    have hfirst := htexts task (by simp)
    rcases List.mem_cons.mp h with rfl | h
    · refine ⟨by simp, ?_⟩
      intro t ht
      rcases result_cases hstate settings hfirst with ⟨done, hresult, hid, -⟩ | ⟨_, _, _, hresult⟩
      · exact hid t (by simpa [Answer.done, hresult] using ht)
      · simp [Answer.done, hresult] at ht
    · obtain ⟨hmem, hid⟩ :=
        ih (sound_next hstate settings hfirst) (fun t ht => htexts t (by simp [ht])) h
      exact ⟨by simp [hmem], hid⟩

/-- The finished tasks of an article come from its tasks. -/
theorem filter_done_effects (hstate : state.Sound)
    (htexts : ∀ task ∈ tasks, ∀ x ∈ task.items, x.text.IsShort) (keep : Nat → Bool) :
    ((effects settings state tasks).flatMap (·.2.done)).filter (fun t => keep t.heading.articleId) =
      ((effects settings state tasks).filter fun e => keep e.1.heading.articleId).flatMap (·.2.done) := by
  have hall : ∀ e ∈ effects settings state tasks, ∀ t ∈ e.2.done,
      t.heading.articleId = e.1.heading.articleId :=
    fun e he => (done_of_mem_effects hstate htexts he).2
  generalize effects settings state tasks = es at hall
  induction es with
  | nil => rfl
  | cons e es ih =>
    have hrest := ih fun e' he' => hall e' (by simp [he'])
    have hfirst : e.2.done.filter (fun t => keep t.heading.articleId) =
        if keep e.1.heading.articleId then e.2.done else [] := by
      split
      · rename_i hkeep
        exact List.filter_eq_self.mpr fun t ht => by rw [hall e (by simp) t ht, hkeep]
      · rename_i hkeep
        exact List.filter_eq_nil_iff.mpr fun t ht => by rwa [hall e (by simp) t ht]
    rw [List.flatMap_cons, List.filter_append, hrest, hfirst, List.filter_cons]
    split <;> simp

/-! ## Shares of the tasks -/

variable {shards : Nat}

/-- What a shard's tasks lead to is part of what all tasks lead to. -/
theorem effects_share (hcontiguous : Contiguous (tasks.map fun t => t.heading.articleId))
    (htexts : ∀ task ∈ tasks, ∀ x ∈ task.items, x.text.IsShort) (i : Nat) :
    effects settings .idle (share shards i tasks) =
      (effects settings .idle tasks).filter fun e => shardOf e.1.heading.articleId shards = i :=
  effects_filter (fun id => shardOf id shards = i) .idle hcontiguous (fun _ _ _ => rfl) htexts

theorem articleId_of_mem_finished (htexts : ∀ task ∈ tasks, ∀ x ∈ task.items, x.text.IsShort)
    {t : Task Diff} (h : t ∈ finished settings tasks) :
    ∃ task ∈ tasks, t.heading.articleId = task.heading.articleId := by
  rw [(recorded_eq_effects settings htexts).1] at h
  obtain ⟨e, he, ht⟩ := List.mem_flatMap.mp h
  obtain ⟨hmem, hid⟩ := done_of_mem_effects .idle htexts he
  exact ⟨e.1, hmem, hid t ht⟩

theorem texts_share (htexts : ∀ task ∈ tasks, ∀ x ∈ task.items, x.text.IsShort) (shards i : Nat) :
    ∀ task ∈ share shards i tasks, ∀ x ∈ task.items, x.text.IsShort :=
  fun task htask => htexts task (List.mem_of_mem_filter htask)

/-- An article leads to the same tasks in its shard as among all articles. -/
theorem finished_share (hcontiguous : Contiguous (tasks.map fun t => t.heading.articleId))
    (htexts : ∀ task ∈ tasks, ∀ x ∈ task.items, x.text.IsShort) (id : Nat) :
    (finished settings (share shards (shardOf id shards) tasks)).filter
        (fun t => t.heading.articleId = id) =
      (finished settings tasks).filter (fun t => t.heading.articleId = id) := by
  have hshare := texts_share htexts shards (shardOf id shards)
  rw [(recorded_eq_effects settings hshare).1, (recorded_eq_effects settings htexts).1,
    filter_done_effects .idle hshare fun x => x = id, filter_done_effects .idle htexts fun x => x = id,
    effects_share hcontiguous htexts, List.filter_filter]
  congr 1
  refine List.filter_congr fun e _ => ?_
  by_cases hid : e.1.heading.articleId = id <;> simp [hid]

theorem perm_effects_share (settings : Settings) (hshards : 0 < shards)
    (hcontiguous : Contiguous (tasks.map fun t => t.heading.articleId))
    (htexts : ∀ task ∈ tasks, ∀ x ∈ task.items, x.text.IsShort) :
    ((List.range shards).flatMap fun i => effects settings .idle (share shards i tasks)).Perm
      (effects settings .idle tasks) := by
  simp only [effects_share hcontiguous htexts]
  refine (perm_flatMap_filter _ shards _).trans ?_
  rw [List.filter_eq_self.mpr fun e _ => by simpa using shardOf_lt e.1.heading.articleId hshards]

theorem refused_share (hshards : 0 < shards)
    (hcontiguous : Contiguous (tasks.map fun t => t.heading.articleId))
    (htexts : ∀ task ∈ tasks, ∀ x ∈ task.items, x.text.IsShort) :
    ((List.range shards).flatMap fun i => refused settings (share shards i tasks)).Perm
      (refused settings tasks) := by
  simp only [fun i => (recorded_eq_effects settings (texts_share htexts shards i)).2.1,
    (recorded_eq_effects settings htexts).2.1]
  rw [← List.filterMap_flatMap]
  exact (perm_effects_share settings hshards hcontiguous htexts).filterMap _

theorem tally_share (hshards : 0 < shards)
    (hcontiguous : Contiguous (tasks.map fun t => t.heading.articleId))
    (htexts : ∀ task ∈ tasks, ∀ x ∈ task.items, x.text.IsShort) :
    ((List.range shards).map fun i => (recorded settings (share shards i tasks)).tally).sum =
      (recorded settings tasks).tally := by
  simp only [fun i => (recorded_eq_effects settings (texts_share htexts shards i)).2.2,
    (recorded_eq_effects settings htexts).2.2]
  have hperm := (perm_effects_share settings hshards hcontiguous htexts).map
    (·.2.recorder.tally)
  rw [← hperm.sum_eq, List.map_flatMap, List.flatMap_def, List.sum_flatten, List.map_map]
  rfl

end Recorder
end EditHistory
