import EditHistory.Proofs.Sharding.Invariant
import EditHistory.Proofs.Sum

/-! A sharded run comes to an end, and not before all is done. Each step leaves less to do, and as long
as the sink waits for more there is a step to take: a queue that is full has somebody to empty it, and
one that is empty and open has somebody to fill it. -/
namespace EditHistory
namespace Sharding

open Recorder (recorded finished refused)

variable {σ : Type} {settings : Settings} {consume : Consumer σ} {net net' : Network σ}
  {tasks sent : List (Task Revision)} {delivered : List (Task Diff)} {initial : σ}

/-! ## Steps that are left -/

/-- The steps that a source still has to take, and others once it has taken them. -/
def Source.remaining : Source → Nat
  | .sending rest _ => sumOf (fun t => 2 * t.items.length + 4) rest + 1
  | .done _ | .failed _ => 0

def Worker.remaining : Worker → Nat
  | .running _ pending _ _ => 2 * pending.length + 1
  | .done _ | .failed _ => 0

/-- The steps that are left for a shard: a task leads to one finished task more than it has items, and
each of them is sent and drained. -/
def Shard.remaining (shard : Shard) : Nat :=
  sumOf (fun t => 2 * t.items.length + 3) shard.input + shard.worker.remaining + shard.output.length +
    (!shard.drained).toNat

def Network.remaining (net : Network σ) : Nat :=
  net.source.remaining + sumOf Shard.remaining net.shards + net.sink.isActive.toNat

theorem remaining_start (shards : Nat) (tasks : List (Task Revision)) (initial : σ) :
    (Network.start shards tasks initial).remaining = Network.bound shards tasks := by
  have hshards : sumOf Shard.remaining (List.replicate (max shards 1) Shard.start) =
      max shards 1 * 2 := sumOf_replicate ..
  change sumOf (fun t => 2 * t.items.length + 4) tasks + 1 +
    sumOf Shard.remaining (List.replicate (max shards 1) Shard.start) + 1 =
      sumOf (fun t => 2 * t.items.length + 4) tasks + 2 * max shards 1 + 2
  omega

theorem remaining_setShard {i : Nat} {shard : Shard} (hshard : net.shards[i]? = some shard)
    (shard' : Shard) :
    (net.setShard i shard').remaining + shard.remaining = net.remaining + shard'.remaining := by
  have hsum := sumOf_set Shard.remaining hshard shard'
  simp only [Network.remaining, Network.setShard]
  omega

theorem remaining_setShard_lt {i : Nat} {shard shard' : Shard} (hshard : net.shards[i]? = some shard)
    (hless : shard'.remaining < shard.remaining) :
    (net.setShard i shard').remaining < net.remaining := by
  have hset := remaining_setShard hshard shard'
  omega

/-- A task leads to no more tasks than there are steps left for it. -/
theorem length_done_le {taken : List (Task Revision)} {task : Task Revision}
    (htaken : ∀ task ∈ taken, ∀ x ∈ task.items, x.text.IsShort)
    (htask : ∀ x ∈ task.items, x.text.IsShort) :
    ((recorded settings taken).process settings task).done.length ≤ task.items.length + 1 := by
  have hsound := Recorder.sound_recorded settings htaken
  rw [Recorder.Answer.done, (Recorder.process_eq_isolated hsound settings htask).1]
  rcases Recorder.result_cases hsound settings htask with
    ⟨done, hresult, -, hlength⟩ | ⟨_, _, _, hresult⟩
  · rw [hresult]
    exact hlength
  · rw [hresult]
    exact Nat.zero_le _

/-- Each step leaves less to do. -/
theorem remaining_lt (h : net.Keeps settings consume tasks initial sent delivered)
    (htexts : ∀ task ∈ tasks, ∀ x ∈ task.items, x.text.IsShort)
    (hstep : Step settings consume net net') : net'.remaining < net.remaining := by
  cases hstep with
  | @send task rest n shard hsource hshard hworker hroom =>
    have hset := remaining_setShard hshard { shard with input := shard.input ++ [task] }
    have hmore : Shard.remaining { shard with input := shard.input ++ [task] } =
        shard.remaining + (2 * task.items.length + 3) := by
      simp only [Shard.remaining, sumOf_append, sumOf_cons, sumOf_nil]
      omega
    simp only [Network.remaining, Network.setShard, hsource, Source.remaining, sumOf_cons] at hset ⊢
    omega
  | finish hsource =>
    simp only [Network.remaining, hsource, Source.remaining, sumOf_nil]
    omega
  | @receive i shard recorder tasksIn errors task input hshard hworker hinput =>
    obtain ⟨taken, rfl, hassigned⟩ := (h.shards i shard hshard).exists_recorded hworker
    have hknown : ∀ t ∈ taken ++ shard.input, ∀ x ∈ t.items, x.text.IsShort := by
      intro t ht
      rw [hassigned] at ht
      exact htexts t (h.sent_prefix t (List.mem_of_mem_filter ht))
    have hdone : ((recorded settings taken).process settings task).done.length ≤
        task.items.length + 1 :=
      length_done_le (fun t ht => hknown t (List.mem_append_left _ ht))
        (hknown task (by simp [hinput]))
    refine remaining_setShard_lt hshard ?_
    simp only [Shard.remaining, hworker, hinput, Worker.remaining, sumOf_cons, List.length_nil]
    omega
  | @retire i shard recorder tasksIn errors hshard hworker hinput hsource =>
    refine remaining_setShard_lt hshard ?_
    simp only [Shard.remaining, hworker, Worker.remaining, List.length_nil]
    omega
  | @forward i shard recorder task pending tasksIn errors hshard hworker hsink hroom =>
    refine remaining_setShard_lt hshard ?_
    simp only [Shard.remaining, hworker, Worker.remaining, List.length_cons, List.length_append,
      List.length_nil]
    omega
  | @drain i shard task output hshard hsink hdrained houtput =>
    have hset := remaining_setShard hshard { shard with output := output }
    have hactive := isActive_sink_iff.mpr hsink
    have hdraining : (Sink.mk (consume net.sink.state task).1 (net.sink.received + 1)
      .draining).isActive = true := rfl
    simp only [Network.remaining, Network.setShard, Shard.remaining, houtput, List.length_cons,
      hactive, hdraining] at hset ⊢
    omega
  | @close i shard hshard hsink hdrained houtput hworker =>
    refine remaining_setShard_lt hshard ?_
    simp only [Shard.remaining, hdrained, Bool.not_true, Bool.not_false, Bool.toNat_true,
      Bool.toNat_false]
    omega
  | stop hsink hdrained =>
    have hactive := isActive_sink_iff.mpr hsink
    have hdone : (Sink.mk net.sink.state net.sink.received .done).isActive = false := rfl
    simp only [Network.remaining, hactive, hdone, Bool.toNat_true, Bool.toNat_false]
    omega

/-! ## Steps that are possible -/

namespace Network.Keeps

/-- A shard takes a step, or something is taken from it, if it holds a finished task or its worker
does not wait for a task. -/
theorem exists_step_of_shard (h : net.Keeps settings consume tasks initial sent delivered)
    (hcapacity : 0 < settings.capacity) (hsink : net.sink.status = .draining) {i : Nat} {shard : Shard}
    (hshard : net.shards[i]? = some shard)
    (hbusy : shard.output ≠ [] ∨ shard.worker.isActive = true ∧
      (shard.input ≠ [] ∨ net.source.isActive = false)) :
    ∃ net', Step settings consume net net' := by
  have hkeeps := h.shards i shard hshard
  cases houtput : shard.output with
  | cons t output =>
    have hdrained : shard.drained = false := by
      cases hkeeps with
      | running => rfl
      | @done _ drained _ _ hdrained =>
        cases drained with
        | false => rfl
        | true => cases (hdrained rfl).symm.trans houtput
    exact ⟨_, .drain hshard hsink hdrained houtput⟩
  | nil =>
    obtain ⟨hworker, hinput⟩ := hbusy.resolve_left (absurd houtput)
    cases hrunning : shard.worker with
    | running recorder pending tasksIn errors =>
      cases pending with
      | cons t pending =>
        have hroom : shard.output.length < settings.capacity := by rwa [houtput]
        exact ⟨_, .forward hshard hrunning hsink hroom⟩
      | nil =>
        cases hcons : shard.input with
        | cons task input => exact ⟨_, .receive hshard hrunning hcons⟩
        | nil => exact ⟨_, .retire hshard hrunning hcons (hinput.resolve_left (absurd hcons))⟩
    | done => simp [hrunning, Worker.isActive] at hworker
    | failed => simp [hrunning, Worker.isActive] at hworker

/-- The source takes a step, or the shard that it waits for does. -/
theorem exists_step_of_source (h : net.Keeps settings consume tasks initial sent delivered)
    (hcapacity : 0 < settings.capacity) (hsink : net.sink.status = .draining)
    (hsource : net.source.isActive = true) : ∃ net', Step settings consume net net' := by
  cases hsending : net.source with
  | done => simp [hsending, Source.isActive] at hsource
  | failed => simp [hsending, Source.isActive] at hsource
  | sending rest n =>
    cases rest with
    | nil => exact ⟨_, .finish hsending⟩
    | cons task rest =>
      have hlt := shardOf_lt task.heading.articleId h.nonempty
      have hshard := List.getElem?_eq_getElem hlt
      have hworker := h.live.workers hsource _ (List.mem_of_getElem? hshard)
      by_cases hroom : (net.shards[shardOf task.heading.articleId net.shards.length]).input.length <
          settings.capacity
      · exact ⟨_, .send hsending hshard hworker hroom⟩
      · refine h.exists_step_of_shard hcapacity hsink hshard (.inr ⟨hworker, .inl ?_⟩)
        intro hempty
        rw [hempty] at hroom
        exact hroom hcapacity

/-- As long as the sink waits for more there is a step to take. -/
theorem exists_step (h : net.Keeps settings consume tasks initial sent delivered)
    (hcapacity : 0 < settings.capacity) (hsink : net.sink.status = .draining) :
    ∃ net', Step settings consume net net' := by
  by_cases hall : ∀ shard ∈ net.shards, shard.drained = true
  · exact ⟨_, .stop hsink hall⟩
  · push Not at hall
    obtain ⟨shard, hmem, hopen⟩ := hall
    have hdrained : shard.drained = false := eq_false_of_ne_true hopen
    obtain ⟨i, hshard⟩ := List.mem_iff_getElem?.mp hmem
    by_cases houtput : shard.output = []
    · by_cases hworker : shard.worker.isActive = true
      · by_cases hsource : net.source.isActive = true
        · exact h.exists_step_of_source hcapacity hsink hsource
        · exact h.exists_step_of_shard hcapacity hsink hshard
            (.inr ⟨hworker, .inr (eq_false_of_ne_true hsource)⟩)
      · exact ⟨_, .close hshard hsink hdrained houtput (eq_false_of_ne_true hworker)⟩
    · exact h.exists_step_of_shard hcapacity hsink hshard (.inl houtput)

end Network.Keeps

end Sharding
end EditHistory
