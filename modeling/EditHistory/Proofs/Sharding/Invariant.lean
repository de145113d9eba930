import EditHistory.Proofs.Sharding.Shares
import EditHistory.Proofs.Sharding.Steps

/-! What holds at every moment of a sharded run. No task is lost, doubled or overtaken on its way
through a shard: the tasks that a worker has taken in and those in its queue are the ones sent to it,
and the tasks that it has finished are those handed to the consumer, those in the other queue and
those that it still holds. -/
namespace EditHistory
namespace Sharding

open Recorder (recorded finished refused)

variable {σ : Type} {settings : Settings} {consume : Consumer σ} {net net' : Network σ}
  {tasks sent assigned : List (Task Revision)} {delivered handed : List (Task Diff)} {initial : σ}

/-- A source that has sent the given ones of all tasks. -/
inductive Source.Keeps (tasks : List (Task Revision)) : List (Task Revision) → Source → Prop where
  | sending {sent rest : List (Task Revision)} (h : sent ++ rest = tasks) :
    Keeps tasks sent (.sending rest sent.length)
  | done : Keeps tasks tasks (.done tasks.length)

/-- A shard to which the given tasks were sent, and from which the given finished tasks were taken.
`more` tells whether there may be more tasks to come. -/
inductive Shard.Keeps (settings : Settings) (more : Bool) (assigned : List (Task Revision))
    (handed : List (Task Diff)) : Shard → Prop where
  | running {taken input : List (Task Revision)} {output pending : List (Task Diff)}
    (hassigned : taken ++ input = assigned)
    (hfinished : handed ++ output ++ pending = finished settings taken) :
    Keeps settings more assigned handed
      ⟨input, .running (recorded settings taken) pending taken.length (refused settings taken), output,
        false⟩
  | done {output : List (Task Diff)} {drained : Bool} (hmore : more = false)
    (hfinished : handed ++ output = finished settings assigned)
    (hdrained : drained = true → output = []) :
    Keeps settings more assigned handed
      ⟨[], .done ⟨assigned.length, (recorded settings assigned).tally, refused settings assigned⟩, output,
        drained⟩

/-- A network that has sent the given ones of all tasks and has handed the given finished tasks to
the consumer. -/
structure Network.Keeps (settings : Settings) (consume : Consumer σ) (tasks : List (Task Revision))
    (initial : σ) (sent : List (Task Revision)) (delivered : List (Task Diff)) (net : Network σ) :
    Prop where
  source : net.source.Keeps tasks sent
  nonempty : 0 < net.shards.length
  shards : ∀ (i : Nat) (shard : Shard), net.shards[i]? = some shard →
    shard.Keeps settings net.source.isActive (share net.shards.length i sent)
      (delivered.filter fun t => shardOf t.heading.articleId net.shards.length = i)
  state_eq : net.sink.state = delivered.foldl (fun s t => (consume s t).1) initial
  received_eq : net.sink.received = delivered.length
  status : net.sink.status = .draining ∨
    net.sink.status = .done ∧ ∀ shard ∈ net.shards, shard.drained = true

theorem keeps_start (settings : Settings) (consume : Consumer σ) (shards : Nat)
    (tasks : List (Task Revision)) (initial : σ) :
    (Network.start shards tasks initial).Keeps settings consume tasks initial [] [] where
  source := .sending rfl
  nonempty := by simp [Network.start]
  shards := by
    intro i shard hshard
    obtain rfl : shard = Shard.start :=
      List.eq_of_mem_replicate (List.mem_of_getElem? hshard)
    have hnone : ([] : List (Task Revision)) ++ [] = [] := rfl
    exact .running hnone rfl
  state_eq := rfl
  received_eq := rfl
  status := .inl rfl

namespace Network.Keeps

theorem live (h : net.Keeps settings consume tasks initial sent delivered) : net.Live where
  workers hsource shard hmem := by
    obtain ⟨i, hshard⟩ := List.mem_iff_getElem?.mp hmem
    cases h.shards i shard hshard with
    | running => rfl
    | done hmore => exact absurd (hsource.symm.trans hmore) (by decide)
  sink shard hmem hworker := by
    rcases h.status with hsink | ⟨-, hdrained⟩
    · exact hsink
    · obtain ⟨i, hshard⟩ := List.mem_iff_getElem?.mp hmem
      have hclosed := hdrained shard hmem
      cases h.shards i shard hshard with
      | running => cases hclosed
      | done => cases hworker

theorem sent_prefix (h : net.Keeps settings consume tasks initial sent delivered) :
    ∀ task ∈ sent, task ∈ tasks := by
  obtain ⟨hsource, -⟩ := h
  generalize net.source = source at hsource
  cases hsource with
  | sending happend => exact fun task htask => happend ▸ List.mem_append_left _ htask
  | done => exact fun _ htask => htask

end Network.Keeps

theorem getElem?_setShard {i j : Nat} {shard shard' : Shard}
    (h : (net.setShard i shard).shards[j]? = some shard') :
    j = i ∧ shard' = shard ∨ j ≠ i ∧ net.shards[j]? = some shard' := by
  rw [Network.setShard, List.getElem?_set] at h
  by_cases hij : i = j
  · rw [if_pos hij] at h
    split at h
    · exact .inl ⟨hij.symm, (Option.some.inj h).symm⟩
    · cases h
  · rw [if_neg hij] at h
    exact .inr ⟨Ne.symm hij, h⟩

/-- A step of one shard leaves the other ones as they are. -/
theorem keeps_setShard {i : Nat} {shard : Shard} {more : Bool}
    {assigned assigned' : Nat → List (Task Revision)} {handed handed' : Nat → List (Task Diff)}
    (h : ∀ (j : Nat) (other : Shard), net.shards[j]? = some other →
      other.Keeps settings more (assigned j) (handed j))
    (hshard : shard.Keeps settings more (assigned' i) (handed' i))
    (hassigned : ∀ j ≠ i, assigned' j = assigned j) (hhanded : ∀ j ≠ i, handed' j = handed j) :
    ∀ (j : Nat) (other : Shard), (net.setShard i shard).shards[j]? = some other →
      other.Keeps settings more (assigned' j) (handed' j) := by
  intro j other hother
  rcases getElem?_setShard hother with ⟨rfl, rfl⟩ | ⟨hj, hother⟩
  · exact hshard
  · rw [hassigned j hj, hhanded j hj]
    exact h j other hother

namespace Shard.Keeps

variable {shard : Shard} {more : Bool}

theorem close_source (h : shard.Keeps settings true assigned handed) :
    shard.Keeps settings false assigned handed := by
  cases h with
  | running hassigned hfinished => exact .running hassigned hfinished
  | done hmore => cases hmore

theorem send (h : shard.Keeps settings more assigned handed) (hworker : shard.worker.isActive = true)
    (task : Task Revision) :
    Shard.Keeps settings more (assigned ++ [task]) handed { shard with input := shard.input ++ [task] } := by
  cases h with
  | running hassigned hfinished =>
    exact .running (by rw [← List.append_assoc, hassigned]) hfinished
  | done => cases hworker

theorem receive (h : shard.Keeps settings more assigned handed) {recorder : Recorder} {tasksIn : Nat}
    {errors : List RecorderError} {task : Task Revision} {input : List (Task Revision)}
    (hworker : shard.worker = .running recorder [] tasksIn errors) (hinput : shard.input = task :: input) :
    Shard.Keeps settings more assigned handed { shard with
      input := input
      worker := .running (recorder.process settings task).recorder
        (recorder.process settings task).done (tasksIn + 1)
        (errors ++ (recorder.process settings task).error?.toList) } := by
  cases h with
  | @running taken _ output _ hassigned hfinished =>
    obtain ⟨rfl, rfl, rfl, rfl⟩ := Worker.running.inj hworker
    dsimp only at hinput
    subst hinput
    rw [List.append_nil] at hfinished
    have hlength : taken.length + 1 = (taken ++ [task]).length := by simp
    rw [← Recorder.recorded_append_singleton, ← Recorder.refused_append_singleton, hlength]
    refine .running ?_ ?_
    · rw [List.append_assoc]
      exact hassigned
    · rw [hfinished, Recorder.finished_append_singleton]
  | done => cases hworker

theorem retire (h : shard.Keeps settings false assigned handed) {recorder : Recorder} {tasksIn : Nat}
    {errors : List RecorderError} (hworker : shard.worker = .running recorder [] tasksIn errors)
    (hinput : shard.input = []) :
    Shard.Keeps settings false assigned handed
      { shard with worker := .done ⟨tasksIn, recorder.tally, errors⟩ } := by
  cases h with
  | @running taken _ output _ hassigned hfinished =>
    obtain ⟨rfl, rfl, rfl, rfl⟩ := Worker.running.inj hworker
    dsimp only at hinput
    subst hinput
    rw [List.append_nil] at hassigned hfinished
    subst hassigned
    exact .done rfl hfinished fun hfalse => by cases hfalse
  | done => cases hworker

theorem forward (h : shard.Keeps settings more assigned handed) {recorder : Recorder} {tasksIn : Nat}
    {errors : List RecorderError} {task : Task Diff} {pending : List (Task Diff)}
    (hworker : shard.worker = .running recorder (task :: pending) tasksIn errors) :
    Shard.Keeps settings more assigned handed { shard with
      worker := .running recorder pending tasksIn errors
      output := shard.output ++ [task] } := by
  cases h with
  | @running taken _ output _ hassigned hfinished =>
    obtain ⟨rfl, rfl, rfl, rfl⟩ := Worker.running.inj hworker
    refine .running hassigned ?_
    rw [← hfinished]
    simp
  | done => cases hworker

theorem drain (h : shard.Keeps settings more assigned handed) {task : Task Diff}
    {output : List (Task Diff)} (hdrained : shard.drained = false)
    (houtput : shard.output = task :: output) :
    Shard.Keeps settings more assigned (handed ++ [task]) { shard with output := output } := by
  cases h with
  | running hassigned hfinished =>
    dsimp only at houtput
    subst houtput
    refine .running hassigned ?_
    rw [← hfinished]
    simp
  | done hmore hfinished =>
    dsimp only at houtput hdrained
    subst houtput hdrained
    refine .done hmore ?_ fun hfalse => by cases hfalse
    rw [← hfinished]
    simp

theorem close (h : shard.Keeps settings more assigned handed) (houtput : shard.output = [])
    (hworker : shard.worker.isActive = false) :
    Shard.Keeps settings more assigned handed { shard with drained := true } := by
  cases h with
  | running => cases hworker
  | done hmore hfinished => exact .done hmore hfinished fun _ => houtput

theorem exists_recorded (h : shard.Keeps settings more assigned handed) {recorder : Recorder}
    {pending : List (Task Diff)} {tasksIn : Nat} {errors : List RecorderError}
    (hworker : shard.worker = .running recorder pending tasksIn errors) :
    ∃ taken, recorder = recorded settings taken ∧ taken ++ shard.input = assigned := by
  cases h with
  | @running taken _ _ _ hassigned hfinished =>
    obtain ⟨rfl, rfl, rfl, rfl⟩ := Worker.running.inj hworker
    exact ⟨taken, rfl, hassigned⟩
  | done => cases hworker

/-- What is in the output of a shard, its tasks led to. -/
theorem exists_of_mem_output (h : shard.Keeps settings more assigned handed)
    (htexts : ∀ task ∈ assigned, ∀ x ∈ task.items, x.text.IsShort) {t : Task Diff}
    (ht : t ∈ shard.output) : ∃ task ∈ assigned, t.heading.articleId = task.heading.articleId := by
  cases h with
  | @running taken input output pending hassigned hfinished =>
    have htaken : ∀ task ∈ taken, task ∈ assigned :=
      fun task htask => hassigned ▸ List.mem_append_left _ htask
    have hmem : t ∈ finished settings taken := by
      rw [← hfinished]
      simp [show t ∈ output from ht]
    obtain ⟨task, htask, hid⟩ :=
      Recorder.articleId_of_mem_finished (fun task htask => htexts task (htaken task htask)) hmem
    exact ⟨task, htaken task htask, hid⟩
  | done hmore hfinished =>
    have hmem : t ∈ finished settings assigned := by
      rw [← hfinished]
      exact List.mem_append_right _ ht
    exact Recorder.articleId_of_mem_finished htexts hmem

end Shard.Keeps

namespace Network.Keeps

variable {i : Nat} {shard shard' : Shard}

/-- A step of a worker. -/
theorem setShard (h : net.Keeps settings consume tasks initial sent delivered)
    (hdraining : net.sink.status = .draining)
    (hshard' : shard'.Keeps settings net.source.isActive (share net.shards.length i sent)
      (delivered.filter fun t => shardOf t.heading.articleId net.shards.length = i)) :
    (net.setShard i shard').Keeps settings consume tasks initial sent delivered where
  source := h.source
  nonempty := by simpa using h.nonempty
  shards := by
    rw [length_setShard]
    exact keeps_setShard h.shards hshard' (fun _ _ => rfl) fun _ _ => rfl
  state_eq := h.state_eq
  received_eq := h.received_eq
  status := .inl hdraining

theorem send (h : net.Keeps settings consume tasks initial sent delivered) {task : Task Revision}
    {rest : List (Task Revision)} {n : Nat} (hsource : net.source = .sending (task :: rest) n)
    (hshard : net.shards[shardOf task.heading.articleId net.shards.length]? = some shard)
    (hworker : shard.worker.isActive = true) :
    Network.Keeps settings consume tasks initial (sent ++ [task]) delivered
      { net.setShard (shardOf task.heading.articleId net.shards.length)
          { shard with input := shard.input ++ [task] } with
        source := .sending rest (n + 1) } where
  source := by
    have hkeeps := h.source
    rw [hsource] at hkeeps
    cases hkeeps with
    | sending happend =>
      have hlength : sent.length + 1 = (sent ++ [task]).length := by simp
      rw [hlength]
      exact .sending (by rw [List.append_assoc]; exact happend)
  nonempty := by simpa using h.nonempty
  shards := by
    have hold := h.shards
    have hactive : net.source.isActive = true := by rw [hsource]; rfl
    rw [hactive] at hold
    simp only [length_setShard]
    refine keeps_setShard hold ?_ ?_ fun _ _ => rfl
    · have hsent : share net.shards.length (shardOf task.heading.articleId net.shards.length)
          (sent ++ [task]) = share net.shards.length
            (shardOf task.heading.articleId net.shards.length) sent ++ [task] := by
        simp [share]
      rw [hsent]
      exact (hold _ shard hshard).send hworker task
    · intro j hj
      simp [share, Ne.symm hj]
  state_eq := h.state_eq
  received_eq := h.received_eq
  status := .inl (h.live.sink shard (List.mem_of_getElem? hshard) hworker)

theorem finish (h : net.Keeps settings consume tasks initial sent delivered) {n : Nat}
    (hsource : net.source = .sending [] n) :
    Network.Keeps settings consume tasks initial sent delivered { net with source := .done n } where
  source := by
    have hkeeps := h.source
    rw [hsource] at hkeeps
    cases hkeeps with
    | sending happend =>
      rw [List.append_nil] at happend
      rw [happend]
      exact .done
  nonempty := h.nonempty
  shards := by
    intro i shard hshard
    have hold := h.shards i shard hshard
    have hactive : net.source.isActive = true := by rw [hsource]; rfl
    rw [hactive] at hold
    exact hold.close_source
  state_eq := h.state_eq
  received_eq := h.received_eq
  status := h.status

theorem drain (h : net.Keeps settings consume tasks initial sent delivered)
    (htexts : ∀ task ∈ tasks, ∀ x ∈ task.items, x.text.IsShort) {t : Task Diff}
    {output : List (Task Diff)} (hshard : net.shards[i]? = some shard)
    (hdrained : shard.drained = false) (houtput : shard.output = t :: output) :
    Network.Keeps settings consume tasks initial sent (delivered ++ [t])
      { net.setShard i { shard with output := output } with
        sink := ⟨(consume net.sink.state t).1, net.sink.received + 1, .draining⟩ } where
  source := h.source
  nonempty := by simpa using h.nonempty
  shards := by
    -- a finished task comes out of the shard of its article
    have hroute : shardOf t.heading.articleId net.shards.length = i := by
      obtain ⟨task, htask, hid⟩ := (h.shards i shard hshard).exists_of_mem_output
        (fun task htask => htexts task (h.sent_prefix task (List.mem_of_mem_filter htask)))
        (houtput ▸ List.mem_cons_self)
      rw [hid]
      simpa using List.of_mem_filter htask
    simp only [length_setShard]
    refine keeps_setShard h.shards ?_ (fun _ _ => rfl) ?_
    · have hhanded : (delivered ++ [t]).filter
          (fun t => shardOf t.heading.articleId net.shards.length = i) =
          delivered.filter (fun t => shardOf t.heading.articleId net.shards.length = i) ++ [t] := by
        simp [hroute]
      rw [hhanded]
      exact (h.shards i shard hshard).drain hdrained houtput
    · intro j hj
      simp [hroute, Ne.symm hj]
  state_eq := by rw [List.foldl_append, ← h.state_eq]; rfl
  received_eq := by rw [List.length_append, ← h.received_eq]; rfl
  status := .inl rfl

/-- Every step keeps everything in its place. -/
theorem step (h : net.Keeps settings consume tasks initial sent delivered)
    (htexts : ∀ task ∈ tasks, ∀ x ∈ task.items, x.text.IsShort)
    (hstep : Step settings consume net net') :
    ∃ sent' delivered', net'.Keeps settings consume tasks initial sent' delivered' := by
  cases hstep with
  | send hsource hshard hworker hroom => exact ⟨_, _, h.send hsource hshard hworker⟩
  | finish hsource => exact ⟨_, _, h.finish hsource⟩
  | @receive i shard recorder tasksIn errors task input hshard hworker hinput =>
    have hsink := h.live.sink shard (List.mem_of_getElem? hshard) (isActive_of_running hworker)
    exact ⟨_, _, h.setShard hsink ((h.shards i shard hshard).receive hworker hinput)⟩
  | @retire i shard recorder tasksIn errors hshard hworker hinput hsource =>
    have hsink := h.live.sink shard (List.mem_of_getElem? hshard) (isActive_of_running hworker)
    have hold := h.shards i shard hshard
    refine ⟨_, _, h.setShard hsink ?_⟩
    rw [hsource] at hold ⊢
    exact hold.retire hworker hinput
  | @forward i shard recorder task pending tasksIn errors hshard hworker hsink hroom =>
    exact ⟨_, _, h.setShard hsink ((h.shards i shard hshard).forward hworker)⟩
  | @drain i shard task output hshard hsink hdrained houtput =>
    exact ⟨_, _, h.drain htexts hshard hdrained houtput⟩
  | @close i shard hshard hsink hdrained houtput hworker =>
    exact ⟨_, _, h.setShard hsink ((h.shards i shard hshard).close houtput hworker)⟩
  | stop hsink hdrained =>
    exact ⟨_, _, h.source, h.nonempty, h.shards, h.state_eq, h.received_eq, .inr ⟨rfl, hdrained⟩⟩

end Network.Keeps

end Sharding
end EditHistory
