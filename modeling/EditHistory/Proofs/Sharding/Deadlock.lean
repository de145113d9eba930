import EditHistory.Proofs.Sharding.Steps

/-! A sharded run never stands still before it is over, whatever the consumer answers. A part that waits
on a full queue waits for one that can empty it, and a part that waits on an empty queue waits for one
that can fill or close it; once the consumer has failed, the ends of the queues that are gone let every
part run into an end of its own. -/
namespace EditHistory
namespace Sharding

variable {σ : Type} {settings : Settings} {consume : Consumer σ} {net net' : Network σ} {i : Nat}
  {shard shard' : Shard}

/-- All parts of a network have come to their ends. -/
structure Network.IsOver (net : Network σ) : Prop where
  source : net.source.isActive = false
  workers : ∀ shard ∈ net.shards, shard.worker.isActive = false
  sink : net.sink.isActive = false

/-- Some part of a network can take a step. -/
def Network.CanStep (settings : Settings) (consume : Consumer σ) (net : Network σ) : Prop :=
  ∃ e net', net.fire settings consume e = some net'

/-! ## What every step keeps -/

/-- There are shards, and the sink has seen the end of a shard only if its worker has ended. -/
structure Network.Orderly (net : Network σ) : Prop where
  nonempty : 0 < net.shards.length
  ended : ∀ shard ∈ net.shards, shard.drained = true → shard.worker.isActive = false

theorem orderly_start (shards : Nat) (tasks : List (Task Revision)) (initial : σ) :
    (Network.start shards tasks initial).Orderly where
  nonempty := by simp [Network.start]
  ended := by
    intro shard hshard hdrained
    obtain rfl : shard = Shard.start := List.eq_of_mem_replicate hshard
    cases hdrained

theorem Network.Orderly.congr (h : net.Orderly) (hshards : net'.shards = net.shards) : net'.Orderly :=
  ⟨hshards ▸ h.nonempty, hshards ▸ h.ended⟩

theorem Network.Orderly.setShard (h : net.Orderly) (i : Nat) (next : Shard)
    (hnext : next.drained = true → next.worker.isActive = false) : (net.setShard i next).Orderly where
  nonempty := by simpa using h.nonempty
  ended := by
    intro other hother
    rcases List.mem_or_eq_of_mem_set hother with hother | rfl
    · exact h.ended other hother
    · exact hnext

theorem drained_of_receive {recorder : Recorder} {tasksIn : Nat} {errors : List RecorderError}
    (h : net.receive settings shard recorder tasksIn errors = some shard') :
    shard'.drained = shard.drained := by
  rw [Network.receive] at h
  split at h
  · cases h
  · obtain rfl := Option.some.inj h
    rfl
  · obtain rfl := Option.some.inj h
    rfl

theorem drained_of_forward {recorder : Recorder} {task : Task Diff} {pending : List (Task Diff)}
    {tasksIn : Nat} {errors : List RecorderError}
    (h : net.forward settings shard recorder task pending tasksIn errors = some shard') :
    shard'.drained = shard.drained := by
  rw [Network.forward] at h
  split at h
  · obtain rfl := Option.some.inj h
    rfl
  · obtain rfl := Option.some.inj h
    rfl
  · cases h

theorem orderly_produce (h : net.Orderly) (hfire : net.produce settings = some net') :
    net'.Orderly := by
  rcases produce_cases hfire with
    ⟨sent, -, rfl⟩ | ⟨task, rest, sent, shard, -, hshard, ⟨-, -, rfl⟩ | ⟨-, rfl⟩⟩
  · exact h.congr rfl
  · have hended := h.ended shard (List.mem_of_getElem? hshard)
    exact (h.setShard _ { shard with input := shard.input ++ [task] } hended).congr rfl
  · exact h.congr rfl

/-- A worker that takes a step was active, and leaves alone what the sink has seen of its shard. -/
theorem work_cases (h : net.work settings i = some net') : ∃ shard shard',
    net.shards[i]? = some shard ∧ shard.worker.isActive = true ∧ shard'.drained = shard.drained ∧
      net' = net.setShard i shard' := by
  rw [Network.work.eq_def] at h
  split at h
  · cases h
  · rename_i shard hshard
    split at h
    · cases h
    · cases h
    · rename_i hworker
      obtain ⟨shard', hreceive, rfl⟩ := Option.map_eq_some_iff.mp h
      exact ⟨shard, shard', hshard, isActive_of_running hworker, drained_of_receive hreceive, rfl⟩
    · rename_i hworker
      obtain ⟨shard', hforward, rfl⟩ := Option.map_eq_some_iff.mp h
      exact ⟨shard, shard', hshard, isActive_of_running hworker, drained_of_forward hforward, rfl⟩

theorem orderly_work (h : net.Orderly) (hfire : net.work settings i = some net') : net'.Orderly := by
  obtain ⟨shard, shard', hshard, hactive, hsame, rfl⟩ := work_cases hfire
  refine h.setShard i shard' fun hdrained => ?_
  have hended := h.ended shard (List.mem_of_getElem? hshard) (hsame ▸ hdrained)
  exact absurd (hended.symm.trans hactive) (by decide)

theorem orderly_drain (h : net.Orderly) (hfire : net.drain settings consume i = some net') :
    net'.Orderly := by
  obtain ⟨shard, hshard, -, -, ⟨task, output, -, rfl⟩ | ⟨-, hworker, rfl⟩⟩ := drain_cases hfire
  · have hended := h.ended shard (List.mem_of_getElem? hshard)
    exact (h.setShard i { shard with output := output } hended).congr rfl
  · -- nothing more comes out of the queue, as its sender is gone
    exact h.setShard i { shard with drained := true } fun _ => hworker

/-- Whatever event takes place, a network stays orderly. -/
theorem orderly_fire (h : net.Orderly) {e : Event} (hfire : net.fire settings consume e = some net') :
    net'.Orderly := by
  cases e with
  | produce => exact orderly_produce h hfire
  | work i => exact orderly_work h hfire
  | drain i => exact orderly_drain h hfire
  | stop =>
    obtain ⟨-, -, rfl⟩ := stop_cases hfire
    exact h.congr rfl

theorem orderly_run (h : net.Orderly) {events : List Event}
    (hevents : events.foldlM (Network.fire settings consume) net = some net') : net'.Orderly := by
  induction events generalizing net with
  | nil =>
    obtain rfl := Option.some.inj hevents
    exact h
  | cons e events ih =>
    rw [List.foldlM_cons] at hevents
    obtain ⟨net₁, hfire, hrest⟩ := Option.bind_eq_some_iff.mp hevents
    exact ih (orderly_fire h hfire) hrest

/-! ## Steps that are possible -/

variable {recorder : Recorder} {pending : List (Task Diff)} {tasksIn : Nat}
  {errors : List RecorderError}

/-- A worker can take in a task, or see that no more will come. -/
theorem canStep_of_receive (hshard : net.shards[i]? = some shard)
    (hworker : shard.worker = .running recorder [] tasksIn errors)
    (hinput : shard.input ≠ [] ∨ net.source.isActive = false) : net.CanStep settings consume := by
  refine ⟨.work i, ?_⟩
  simp only [Network.fire, Network.work, hshard, hworker]
  cases hitems : shard.input with
  | cons task input => exact ⟨_, by rw [receive_eq hitems]; rfl⟩
  | nil =>
    have hsource := hinput.resolve_left (absurd hitems)
    exact ⟨_, by rw [retire_eq hitems hsource]; rfl⟩

/-- A worker can send on a task, or see that the sink is gone. -/
theorem canStep_of_forward {task : Task Diff} (hshard : net.shards[i]? = some shard)
    (hworker : shard.worker = .running recorder (task :: pending) tasksIn errors)
    (houtput : shard.output.length < settings.capacity ∨ net.sink.isActive = false) :
    net.CanStep settings consume := by
  refine ⟨.work i, ?_⟩
  simp only [Network.fire, Network.work, hshard, hworker]
  cases hsink : net.sink.isActive with
  | true =>
    have hroom := houtput.resolve_right (by simp [hsink])
    exact ⟨_, by rw [forward_eq hsink hroom]; rfl⟩
  | false =>
    have hclosed : (net.outputQueue settings shard).send task = .error .closed := by
      simp [Network.outputQueue, Queue.send, hsink]
    exact ⟨_, by rw [Network.forward, hclosed]; rfl⟩

/-- The sink can take a task from a shard, or see that no more will come. -/
theorem canStep_of_drain (hsink : net.sink.isActive = true) (hshard : net.shards[i]? = some shard)
    (hdrained : shard.drained = false)
    (houtput : shard.output ≠ [] ∨ shard.worker.isActive = false) : net.CanStep settings consume := by
  rw [isActive_sink_iff] at hsink
  cases hitems : shard.output with
  | cons task output => exact ⟨.drain i, _, drain_of_cons hshard hsink hdrained hitems⟩
  | nil =>
    have hworker := houtput.resolve_left (absurd hitems)
    exact ⟨.drain i, _, drain_of_closed hshard hsink hdrained hitems hworker⟩

/-- A worker that has something in its input queue, or no more to wait for, does not stand in the
way: it can go on, or the sink can make room for it. -/
theorem canStep_of_worker (h : net.Orderly) (hcapacity : 0 < settings.capacity)
    (hshard : net.shards[i]? = some shard) (hworker : shard.worker.isActive = true)
    (hinput : shard.input ≠ [] ∨ net.source.isActive = false) : net.CanStep settings consume := by
  cases hrunning : shard.worker with
  | done => simp [hrunning, Worker.isActive] at hworker
  | failed => simp [hrunning, Worker.isActive] at hworker
  | running recorder pending tasksIn errors =>
    cases pending with
    | nil => exact canStep_of_receive hshard hrunning hinput
    | cons task pending =>
      cases hsink : net.sink.isActive with
      | false => exact canStep_of_forward hshard hrunning (.inr hsink)
      | true =>
        cases houtput : shard.output with
        | nil => exact canStep_of_forward hshard hrunning (.inl (houtput ▸ hcapacity))
        | cons t output =>
          have hdrained : shard.drained = false := by
            refine eq_false_of_ne_true fun htrue => ?_
            have hended := h.ended shard (List.mem_of_getElem? hshard) htrue
            exact absurd (hended.symm.trans hworker) (by decide)
          exact canStep_of_drain hsink hshard hdrained (.inl (houtput ▸ List.cons_ne_nil t output))

/-- A source that is not done does not stand in the way either. -/
theorem canStep_of_source (h : net.Orderly) (hcapacity : 0 < settings.capacity)
    (hsource : net.source.isActive = true) : net.CanStep settings consume := by
  cases hsending : net.source with
  | done => simp [hsending, Source.isActive] at hsource
  | failed => simp [hsending, Source.isActive] at hsource
  | sending rest n =>
    cases rest with
    | nil =>
      refine ⟨.produce, { net with source := .done n }, ?_⟩
      rw [Network.fire, Network.produce.eq_def, hsending]
    | cons task rest =>
      have hlt : shardOf task.heading.articleId net.shards.length < net.shards.length := by
        rw [shardOf, Nat.max_eq_left h.nonempty]
        exact Nat.mod_lt _ h.nonempty
      have hshard := List.getElem?_eq_getElem hlt
      generalize net.shards[shardOf task.heading.articleId net.shards.length] = shard at hshard
      cases hworker : shard.worker.isActive with
      | false =>
        have hclosed : (net.inputQueue settings shard).send task = .error .closed := by
          simp [Network.inputQueue, Queue.send, hworker]
        refine ⟨.produce, { net with source := .failed (.closed inputStage) }, ?_⟩
        rw [Network.fire, Network.produce.eq_def, hsending]
        simp only [hshard, hclosed]
      | true =>
        by_cases hroom : shard.input.length < settings.capacity
        · have hsend : (net.inputQueue settings shard).send task = .ok
              { net.inputQueue settings shard with items := shard.input ++ [task] } :=
            Queue.send_of_room hworker hroom
          refine ⟨.produce, Option.isSome_iff_exists.mp ?_⟩
          rw [Network.fire, Network.produce.eq_def, hsending]
          simp only [hshard, hsend, Option.isSome_some]
        · refine canStep_of_worker h hcapacity hshard hworker (.inl ?_)
          intro hempty
          rw [hempty] at hroom
          exact hroom hcapacity

/-- A sink that waits for more does not stand in the way, even if all shards let it wait. -/
theorem canStep_of_sink (h : net.Orderly) (hcapacity : 0 < settings.capacity)
    (hsink : net.sink.isActive = true) : net.CanStep settings consume := by
  by_cases hall : net.shards.all Shard.drained = true
  · refine ⟨.stop, { net with sink := { net.sink with status := .done } }, ?_⟩
    rw [Network.fire, Network.stop, hsink, hall]
    rfl
  · simp only [List.all_eq_true, not_forall] at hall
    obtain ⟨shard, hmem, hopen⟩ := hall
    obtain ⟨i, hshard⟩ := List.mem_iff_getElem?.mp hmem
    cases hworker : shard.worker.isActive with
    | false => exact canStep_of_drain hsink hshard (eq_false_of_ne_true hopen) (.inr hworker)
    | true =>
      cases hsource : net.source.isActive with
      | true => exact canStep_of_source h hcapacity hsource
      | false => exact canStep_of_worker h hcapacity hshard hworker (.inr hsource)

/-- A network in which no part can take a step has come to its end. -/
theorem Network.Orderly.isOver (h : net.Orderly) (hcapacity : 0 < settings.capacity)
    (hstuck : ¬ net.CanStep settings consume) : net.IsOver := by
  refine ⟨?_, ?_, ?_⟩
  · exact eq_false_of_ne_true fun hsource => hstuck (canStep_of_source h hcapacity hsource)
  · intro shard hmem
    obtain ⟨i, hshard⟩ := List.mem_iff_getElem?.mp hmem
    refine eq_false_of_ne_true fun hworker => hstuck ?_
    cases hsource : net.source.isActive with
    | true => exact canStep_of_source h hcapacity hsource
    | false => exact canStep_of_worker h hcapacity hshard hworker (.inr hsource)
  · exact eq_false_of_ne_true fun hsink => hstuck (canStep_of_sink h hcapacity hsink)

/-- Sharded runs never stand still before they are over. With as many shards as one likes and room for
at least one task in every queue, whatever order the steps are taken in and whatever the consumer
answers, every state that a run comes to is the end of all its parts or allows for another step. -/
theorem isOver_or_canStep (settings : Settings) (hcapacity : 0 < settings.capacity) (shards : Nat)
    (tasks : List (Task Revision)) (consume : Consumer σ) (initial : σ) (events : List Event)
    (net : Network σ)
    (hevents : events.foldlM (Network.fire settings consume) (Network.start shards tasks initial) =
      some net) : net.IsOver ∨ ∃ e net', net.fire settings consume e = some net' := by
  have h := orderly_run (orderly_start shards tasks initial) hevents
  exact or_iff_not_imp_right.mpr (h.isOver hcapacity)

/-- A consumer that refuses the first finished task while the source still has tasks to send: the run
is not over, and it goes on. -/
theorem isOver_or_canStep_after_failure :
    let settings : Settings := { Settings.default with capacity := 1 }
    let tasks : List (Task Revision) :=
      [⟨⟨7, "Lean"⟩, 0, .full, [⟨0, 11, ⟨5, 0⟩, [0x61], "", .anonymous "::1", false⟩], 0⟩,
        ⟨⟨9, "Rust"⟩, 0, .full, [⟨2, 13, ⟨7, 0⟩, [0x63], "", .anonymous "::1", false⟩], 0⟩,
        ⟨⟨8, "Diff"⟩, 0, .full, [⟨3, 14, ⟨8, 0⟩, [0x64], "", .anonymous "::1", false⟩], 0⟩]
    let refuse : Consumer Unit := fun s _ => (s, some (.consumer "full"))
    ∃ net, [Event.produce, .work 1, .work 1, .drain 1].foldlM (Network.fire settings refuse)
        (Network.start 2 tasks ()) = some net ∧
      net.sink.isActive = false ∧ net.source.isActive = true ∧
        ∃ e net', net.fire settings refuse e = some net' := by
  intro settings tasks refuse
  have hcome : ([Event.produce, .work 1, .work 1, .drain 1].foldlM (Network.fire settings refuse)
      (Network.start 2 tasks ())).any (fun net => !net.sink.isActive && net.source.isActive) = true := by
    decide +kernel
  obtain ⟨net, hevents, hends⟩ := (Option.any_eq_true _ _).mp hcome
  simp only [Bool.and_eq_true, Bool.not_eq_true'] at hends
  have h := isOver_or_canStep settings (by decide) 2 tasks refuse () _ net hevents
  have hover : ¬ net.IsOver := fun h => absurd (h.source.symm.trans hends.2) (by decide)
  exact ⟨net, hevents, hends.1, hends.2, h.resolve_left hover⟩

end Sharding
end EditHistory
