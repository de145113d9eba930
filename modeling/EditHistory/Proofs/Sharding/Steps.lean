import EditHistory.Proofs.Archive.Calls
import EditHistory.Sharding.Network

/-! The steps of a sharded run, one kind for each thing that a part of the network can do. -/
namespace EditHistory

namespace Queue

variable {α : Type} {q : Queue α} {item : α} {rest : List α}

theorem send_of_room (hreceiver : q.hasReceiver = true) (hroom : q.items.length < q.capacity) :
    q.send item = .ok { q with items := q.items ++ [item] } := by simp [send, hreceiver, hroom]

theorem send_of_full (hreceiver : q.hasReceiver = true) (hfull : ¬ q.items.length < q.capacity) :
    q.send item = .error .blocked := by simp [send, hreceiver, hfull]

theorem send_of_closed (hreceiver : q.hasReceiver = false) : q.send item = .error .closed := by
  simp [send, hreceiver]

theorem receive_of_cons (h : q.items = item :: rest) :
    q.receive = .ok (some item, { q with items := rest }) := by simp [receive, h]

theorem receive_of_closed (hempty : q.items = []) (hsender : q.hasSender = false) :
    q.receive = .ok (none, q) := by simp [receive, hempty, hsender]

theorem receive_of_open (hempty : q.items = []) (hsender : q.hasSender = true) :
    q.receive = .error .blocked := by simp [receive, hempty, hsender]

end Queue

namespace Sharding

variable {σ : Type} {settings : Settings} {consume : Consumer σ} {net net' : Network σ}

/-- Nothing is sent to a part that is gone. -/
structure Network.Live (net : Network σ) : Prop where
  workers : net.source.isActive = true → ∀ shard ∈ net.shards, shard.worker.isActive = true
  sink : ∀ shard ∈ net.shards, shard.worker.isActive = true → net.sink.status = .draining

/-- A step of a network in which nothing fails. -/
inductive Step (settings : Settings) (consume : Consumer σ) (net : Network σ) : Network σ → Prop where
  /-- The source sends a task to the shard of its article. -/
  | send {task : Task Revision} {rest : List (Task Revision)} {sent : Nat} {shard : Shard}
    (hsource : net.source = .sending (task :: rest) sent)
    (hshard : net.shards[shardOf task.heading.articleId net.shards.length]? = some shard)
    (hworker : shard.worker.isActive = true) (hroom : shard.input.length < settings.capacity) :
    Step settings consume net
      { net.setShard (shardOf task.heading.articleId net.shards.length)
          { shard with input := shard.input ++ [task] } with
        source := .sending rest (sent + 1) }
  /-- The source has sent everything. -/
  | finish {sent : Nat} (hsource : net.source = .sending [] sent) :
    Step settings consume net { net with source := .done sent }
  /-- A worker takes in a task and records it. -/
  | receive {i : Nat} {shard : Shard} {recorder : Recorder} {tasksIn : Nat}
    {errors : List RecorderError} {task : Task Revision} {input : List (Task Revision)}
    (hshard : net.shards[i]? = some shard) (hworker : shard.worker = .running recorder [] tasksIn errors)
    (hinput : shard.input = task :: input) :
    Step settings consume net
      (net.setShard i { shard with
        input := input
        worker := .running (recorder.process settings task).recorder
          (recorder.process settings task).done (tasksIn + 1)
          (errors ++ (recorder.process settings task).error?.toList) })
  /-- A worker sees that no more tasks will come. -/
  | retire {i : Nat} {shard : Shard} {recorder : Recorder} {tasksIn : Nat}
    {errors : List RecorderError} (hshard : net.shards[i]? = some shard)
    (hworker : shard.worker = .running recorder [] tasksIn errors) (hinput : shard.input = [])
    (hsource : net.source.isActive = false) :
    Step settings consume net
      (net.setShard i { shard with worker := .done ⟨tasksIn, recorder.tally, errors⟩ })
  /-- A worker sends on a finished task. -/
  | forward {i : Nat} {shard : Shard} {recorder : Recorder} {task : Task Diff}
    {pending : List (Task Diff)} {tasksIn : Nat} {errors : List RecorderError}
    (hshard : net.shards[i]? = some shard)
    (hworker : shard.worker = .running recorder (task :: pending) tasksIn errors)
    (hsink : net.sink.status = .draining) (hroom : shard.output.length < settings.capacity) :
    Step settings consume net
      (net.setShard i { shard with
        worker := .running recorder pending tasksIn errors
        output := shard.output ++ [task] })
  /-- The sink hands a finished task to the consumer. -/
  | drain {i : Nat} {shard : Shard} {task : Task Diff} {output : List (Task Diff)}
    (hshard : net.shards[i]? = some shard) (hsink : net.sink.status = .draining)
    (hdrained : shard.drained = false) (houtput : shard.output = task :: output) :
    Step settings consume net
      { net.setShard i { shard with output := output } with
        sink := ⟨(consume net.sink.state task).1, net.sink.received + 1, .draining⟩ }
  /-- The sink sees that a shard will send no more. -/
  | close {i : Nat} {shard : Shard} (hshard : net.shards[i]? = some shard)
    (hsink : net.sink.status = .draining) (hdrained : shard.drained = false)
    (houtput : shard.output = []) (hworker : shard.worker.isActive = false) :
    Step settings consume net (net.setShard i { shard with drained := true })
  /-- The sink has seen the end of all shards. -/
  | stop (hsink : net.sink.status = .draining)
    (hdrained : ∀ shard ∈ net.shards, shard.drained = true) :
    Step settings consume net { net with sink := { net.sink with status := .done } }

theorem isActive_of_running {worker : Worker} {recorder : Recorder} {pending : List (Task Diff)}
    {tasksIn : Nat} {errors : List RecorderError}
    (h : worker = .running recorder pending tasksIn errors) : worker.isActive = true := by
  rw [h]
  rfl

@[simp] theorem length_setShard (i : Nat) (shard : Shard) :
    (net.setShard i shard).shards.length = net.shards.length := List.length_set

theorem isActive_sink_iff : net.sink.isActive = true ↔ net.sink.status = .draining := by
  rw [Sink.isActive]
  cases net.sink.status <;> simp

/-- The worker that has processed a task. -/
theorem receive_eq {shard : Shard} {recorder : Recorder} {tasksIn : Nat}
    {errors : List RecorderError} {task : Task Revision} {input : List (Task Revision)}
    (hinput : shard.input = task :: input) :
    net.receive settings shard recorder tasksIn errors = some { shard with
      input := input
      worker := .running (recorder.process settings task).recorder
        (recorder.process settings task).done (tasksIn + 1)
        (errors ++ (recorder.process settings task).error?.toList) } := by
  have hqueue : (net.inputQueue settings shard).items = task :: input := hinput
  rw [Network.receive, Queue.receive_of_cons hqueue]
  dsimp only
  rw [Recorder.Answer.done, Recorder.Answer.error?]
  cases (recorder.process settings task).result with
  | ok done => simp
  | error e => simp

/-- The worker that has seen the end of its tasks. -/
theorem retire_eq {shard : Shard} {recorder : Recorder} {tasksIn : Nat} {errors : List RecorderError}
    (hinput : shard.input = []) (hsource : net.source.isActive = false) :
    net.receive settings shard recorder tasksIn errors =
      some { shard with worker := .done ⟨tasksIn, recorder.tally, errors⟩ } := by
  rw [Network.receive, Queue.receive_of_closed hinput hsource]
  rfl

/-- The worker that has sent on a task. -/
theorem forward_eq {shard : Shard} {recorder : Recorder} {task : Task Diff}
    {pending : List (Task Diff)} {tasksIn : Nat} {errors : List RecorderError}
    (hsink : net.sink.isActive = true) (hroom : shard.output.length < settings.capacity) :
    net.forward settings shard recorder task pending tasksIn errors = some { shard with
      worker := .running recorder pending tasksIn errors
      output := shard.output ++ [task] } := by
  rw [Network.forward, Queue.send_of_room hsink hroom]
  rfl

/-- What the source comes to: it has sent everything, or it sends a task, or the worker that the task is
for is gone. -/
theorem produce_cases (h : net.produce settings = some net') :
    (∃ sent, net.source = .sending [] sent ∧ net' = { net with source := .done sent }) ∨
    ∃ task rest sent shard, net.source = .sending (task :: rest) sent ∧
      net.shards[shardOf task.heading.articleId net.shards.length]? = some shard ∧
      (shard.worker.isActive = true ∧ shard.input.length < settings.capacity ∧
          net' = { net.setShard (shardOf task.heading.articleId net.shards.length)
            { shard with input := shard.input ++ [task] } with source := .sending rest (sent + 1) } ∨
        shard.worker.isActive = false ∧
          net' = { net with source := .failed (.closed inputStage) }) := by
  rw [Network.produce.eq_def] at h
  cases hsource : net.source with
  | done sent => simp [hsource] at h
  | failed e => simp [hsource] at h
  | sending rest sent =>
    rw [hsource] at h
    cases rest with
    | nil => exact .inl ⟨sent, rfl, (Option.some.inj h).symm⟩
    | cons task rest =>
      dsimp only at h
      split at h
      · cases h
      · rename_i shard hshard
        refine .inr ⟨task, rest, sent, shard, rfl, hshard, ?_⟩
        by_cases hworker : shard.worker.isActive = true
        · by_cases hroom : shard.input.length < settings.capacity
          · rw [Queue.send_of_room hworker hroom] at h
            exact .inl ⟨hworker, hroom, (Option.some.inj h).symm⟩
          · rw [Queue.send_of_full hworker hroom] at h
            cases h
        · rw [Bool.not_eq_true] at hworker
          rw [Queue.send_of_closed hworker] at h
          exact .inr ⟨hworker, (Option.some.inj h).symm⟩

theorem step_of_produce (hlive : net.Live) (h : net.produce settings = some net') :
    Step settings consume net net' := by
  rcases produce_cases h with ⟨sent, hsource, rfl⟩ | ⟨task, rest, sent, shard, hsource, hshard, hsend⟩
  · exact .finish hsource
  · have hworker : shard.worker.isActive = true :=
      hlive.workers (by rw [hsource]; rfl) shard (List.mem_of_getElem? hshard)
    rcases hsend with ⟨-, hroom, rfl⟩ | ⟨hgone, -⟩
    · exact .send hsource hshard hworker hroom
    · exact absurd (hgone.symm.trans hworker) (by decide)

theorem step_of_work (hlive : net.Live) {i : Nat} (h : net.work settings i = some net') :
    Step settings consume net net' := by
  rw [Network.work.eq_def] at h
  split at h
  · cases h
  · rename_i shard hshard
    split at h
    · cases h
    · cases h
    · rename_i recorder tasksIn errors hworker
      cases hinput : shard.input with
      | cons task input =>
        rw [receive_eq hinput] at h
        obtain rfl := Option.some.inj h
        exact .receive hshard hworker hinput
      | nil =>
        by_cases hsource : net.source.isActive = true
        · rw [Network.receive, Queue.receive_of_open hinput hsource] at h
          cases h
        · rw [Bool.not_eq_true] at hsource
          rw [retire_eq hinput hsource] at h
          obtain rfl := Option.some.inj h
          exact .retire hshard hworker hinput hsource
    · rename_i recorder task pending tasksIn errors hworker
      have hsink : net.sink.status = .draining :=
        hlive.sink shard (List.mem_of_getElem? hshard) (isActive_of_running hworker)
      have hactive : net.sink.isActive = true := isActive_sink_iff.mpr hsink
      by_cases hroom : shard.output.length < settings.capacity
      · rw [forward_eq hactive hroom] at h
        obtain rfl := Option.some.inj h
        exact .forward hshard hworker hsink hroom
      · rw [Network.forward, Queue.send_of_full hactive hroom] at h
        cases h

/-- The sink after it has handed a task to the consumer. -/
def Sink.after (consume : Consumer σ) (sink : Sink σ) (task : Task Diff) : Sink σ :=
  match consume sink.state task with
  | (state, none) => ⟨state, sink.received + 1, .draining⟩
  | (state, some e) => ⟨state, sink.received, .failed e⟩

theorem after_of_accept (hconsume : ∀ s t, (consume s t).2 = none) (sink : Sink σ) (t : Task Diff) :
    sink.after consume t = ⟨(consume sink.state t).1, sink.received + 1, .draining⟩ := by
  have hanswer : consume sink.state t = ((consume sink.state t).1, none) := Prod.ext rfl (hconsume _ t)
  rw [Sink.after, hanswer]

theorem drain_of_cons {i : Nat} {shard : Shard} {task : Task Diff} {output : List (Task Diff)}
    (hshard : net.shards[i]? = some shard) (hsink : net.sink.status = .draining)
    (hdrained : shard.drained = false) (houtput : shard.output = task :: output) :
    net.drain settings consume i = some { net.setShard i { shard with output := output } with
      sink := net.sink.after consume task } := by
  have hactive := isActive_sink_iff.mpr hsink
  have hqueue : (net.outputQueue settings shard).items = task :: output := houtput
  simp only [Network.drain, hshard, hactive, hdrained, Bool.not_true, Bool.or_self, Bool.false_eq_true,
    if_false, Queue.receive_of_cons hqueue]
  rfl

theorem drain_of_closed {i : Nat} {shard : Shard} (hshard : net.shards[i]? = some shard)
    (hsink : net.sink.status = .draining) (hdrained : shard.drained = false)
    (houtput : shard.output = []) (hworker : shard.worker.isActive = false) :
    net.drain settings consume i = some (net.setShard i { shard with drained := true }) := by
  have hactive := isActive_sink_iff.mpr hsink
  have hqueue : (net.outputQueue settings shard).items = [] := houtput
  simp only [Network.drain, hshard, hactive, hdrained, Bool.not_true, Bool.or_self, Bool.false_eq_true,
    if_false, Queue.receive_of_closed hqueue hworker]

/-- What a drain comes to: a task is handed to the consumer, or the end of a shard is seen. -/
theorem drain_cases {i : Nat} (h : net.drain settings consume i = some net') :
    ∃ shard, net.shards[i]? = some shard ∧ net.sink.status = .draining ∧ shard.drained = false ∧
      ((∃ task output, shard.output = task :: output ∧
        net' = { net.setShard i { shard with output := output } with
          sink := net.sink.after consume task }) ∨
      (shard.output = [] ∧ shard.worker.isActive = false ∧
        net' = net.setShard i { shard with drained := true })) := by
  cases hshard : net.shards[i]? with
  | none =>
    simp only [Network.drain, hshard] at h
    cases h
  | some shard =>
    by_cases hopen : (!net.sink.isActive || shard.drained) = true
    · simp only [Network.drain, hshard, hopen, if_true] at h
      cases h
    · simp only [Bool.or_eq_true, Bool.not_eq_true', not_or, Bool.not_eq_false, Bool.not_eq_true]
        at hopen
      obtain ⟨hactive, hdrained⟩ := hopen
      have hsink := isActive_sink_iff.mp hactive
      refine ⟨shard, rfl, hsink, hdrained, ?_⟩
      by_cases houtput : shard.output = []
      · by_cases hworker : shard.worker.isActive = true
        · have hqueue : (net.outputQueue settings shard).items = [] := houtput
          simp only [Network.drain, hshard, hactive, hdrained, Bool.not_true, Bool.or_self,
            Bool.false_eq_true, if_false, Queue.receive_of_open hqueue hworker] at h
          cases h
        · rw [Bool.not_eq_true] at hworker
          rw [drain_of_closed hshard hsink hdrained houtput hworker] at h
          exact .inr ⟨houtput, hworker, (Option.some.inj h).symm⟩
      · obtain ⟨task, output, houtput⟩ := List.exists_cons_of_ne_nil houtput
        rw [drain_of_cons hshard hsink hdrained houtput] at h
        exact .inl ⟨task, output, houtput, (Option.some.inj h).symm⟩

theorem step_of_drain (hconsume : ∀ s t, (consume s t).2 = none) {i : Nat}
    (h : net.drain settings consume i = some net') : Step settings consume net net' := by
  obtain ⟨shard, hshard, hsink, hdrained, ⟨task, output, houtput, rfl⟩ | ⟨houtput, hworker, rfl⟩⟩ :=
    drain_cases h
  · rw [after_of_accept hconsume]
    exact .drain hshard hsink hdrained houtput
  · exact .close hshard hsink hdrained houtput hworker

theorem stop_cases (h : net.stop = some net') : net.sink.status = .draining ∧
    (∀ shard ∈ net.shards, shard.drained = true) ∧
    net' = { net with sink := { net.sink with status := .done } } := by
  rw [Network.stop] at h
  split at h
  · rename_i hstop
    rw [Bool.and_eq_true, List.all_eq_true] at hstop
    exact ⟨isActive_sink_iff.mp hstop.1, hstop.2, (Option.some.inj h).symm⟩
  · cases h

theorem step_of_stop (h : net.stop = some net') : Step settings consume net net' := by
  obtain ⟨hsink, hdrained, rfl⟩ := stop_cases h
  exact .stop hsink hdrained

/-- Whatever event takes place in a network without dead ends, it is a step. -/
theorem step_of_fire (hlive : net.Live) (hconsume : ∀ s t, (consume s t).2 = none) {e : Event}
    (h : net.fire settings consume e = some net') : Step settings consume net net' := by
  cases e with
  | produce => exact step_of_produce hlive h
  | work i => exact step_of_work hlive h
  | drain i => exact step_of_drain hconsume h
  | stop => exact step_of_stop h

/-- Every step takes place by some event. -/
theorem exists_fire_of_step (hconsume : ∀ s t, (consume s t).2 = none)
    (h : Step settings consume net net') : ∃ e, net.fire settings consume e = some net' := by
  cases h with
  | @send task rest sent shard hsource hshard hworker hroom =>
    refine ⟨.produce, ?_⟩
    rw [Network.fire, Network.produce.eq_def, hsource]
    dsimp only
    rw [hshard]
    dsimp only
    rw [Queue.send_of_room hworker hroom]
    rfl
  | finish hsource =>
    refine ⟨.produce, ?_⟩
    rw [Network.fire, Network.produce.eq_def, hsource]
  | @receive i shard recorder tasksIn errors task input hshard hworker hinput =>
    refine ⟨.work i, ?_⟩
    simp only [Network.fire, Network.work, hshard, hworker, receive_eq hinput, Option.map_some]
  | @retire i shard recorder tasksIn errors hshard hworker hinput hsource =>
    refine ⟨.work i, ?_⟩
    simp only [Network.fire, Network.work, hshard, hworker, retire_eq hinput hsource, Option.map_some]
  | @forward i shard recorder task pending tasksIn errors hshard hworker hsink hroom =>
    refine ⟨.work i, ?_⟩
    have hactive := isActive_sink_iff.mpr hsink
    simp only [Network.fire, Network.work, hshard, hworker, forward_eq hactive hroom, Option.map_some]
  | @drain i shard task output hshard hsink hdrained houtput =>
    refine ⟨.drain i, ?_⟩
    rw [← after_of_accept hconsume]
    exact drain_of_cons hshard hsink hdrained houtput
  | @close i shard hshard hsink hdrained houtput hworker =>
    exact ⟨.drain i, drain_of_closed hshard hsink hdrained houtput hworker⟩
  | stop hsink hdrained =>
    refine ⟨.stop, ?_⟩
    have hactive := isActive_sink_iff.mpr hsink
    have hall : net.shards.all Shard.drained = true := List.all_eq_true.mpr hdrained
    rw [Network.fire, Network.stop, hactive, hall]
    rfl

end Sharding
end EditHistory
