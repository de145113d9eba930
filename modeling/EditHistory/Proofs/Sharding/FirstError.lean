import EditHistory.Proofs.Sharding.Deadlock
import EditHistory.Proofs.Sharding.Delivery

/-! The first error of the consumer ends a sharded run and is what the run returns, whatever the parts
of the network still come to: the consumer is not called again, and the state of the sink, which is
looked at before the source and the workers, stays as the error left it. -/
namespace EditHistory

/-- A finished task that was handed to the consumer, and what the consumer answered. -/
abbrev Consumer.Call := Task Diff × Option ShardingError

/-- A consumer that notes down beside its state what it is called with. -/
def Consumer.noting {σ : Type} (consume : Consumer σ) : Consumer (σ × List Consumer.Call) :=
  fun (state, calls) task =>
    let (state, answer) := consume state task
    ((state, calls ++ [(task, answer)]), answer)

theorem Consumer.noting_eq {σ : Type} {consume : Consumer σ} {state state' : σ} {task : Task Diff}
    {answer : Option ShardingError} (h : consume state task = (state', answer))
    (calls : List Consumer.Call) :
    consume.noting (state, calls) task = ((state', calls ++ [(task, answer)]), answer) := by
  simp only [noting, h]

namespace Sharding

variable {σ : Type} {settings : Settings} {consume : Consumer σ} {net net' : Network σ}
  {calls calls' : List Consumer.Call} {status status' status'' : SinkStatus} {error : ShardingError}

/-! ## Calls beside a run -/

/-- A network whose consumer has noted down some calls. -/
def Network.withCalls (net : Network σ) (calls : List Consumer.Call) :
    Network (σ × List Consumer.Call) :=
  ⟨net.source, net.shards, ⟨(net.sink.state, calls), net.sink.received, net.sink.status⟩⟩

/-- Events lead from a network to another one, and on the way the consumer gets these calls and
answers them so. -/
def Network.Calls (settings : Settings) (consume : Consumer σ) (net : Network σ) (events : List Event)
    (calls : List Consumer.Call) (net' : Network σ) : Prop :=
  events.foldlM (Network.fire settings consume.noting) (net.withCalls []) =
    some (net'.withCalls calls)

/-- How a sink stands before and after it hears of calls: as long as they are accepted it waits for
more. -/
inductive SinkStatus.Hears : SinkStatus → List Consumer.Call → SinkStatus → Prop where
  | nothing {status : SinkStatus} : Hears status [] status
  | accept {t : Task Diff} {calls : List Consumer.Call} {status : SinkStatus}
    (h : Hears .draining calls status) : Hears .draining ((t, none) :: calls) status
  | refuse {t : Task Diff} {e : ShardingError} : Hears .draining [(t, some e)] (.failed e)
  | stop : Hears .draining [] .done

namespace SinkStatus.Hears

/-- A sink that has failed is not called again and goes on to have failed so. -/
theorem of_failed (h : Hears (.failed error) calls status) : calls = [] ∧ status = .failed error := by
  cases h with
  | nothing => exact ⟨rfl, rfl⟩

theorem of_done (h : Hears .done calls status) : calls = [] ∧ status = .done := by
  cases h with
  | nothing => exact ⟨rfl, rfl⟩

theorem trans (h : status.Hears calls status') (h' : status'.Hears calls' status'') :
    status.Hears (calls ++ calls') status'' := by
  induction h with
  | nothing => exact h'
  | accept _ ih => exact .accept (ih h')
  | refuse =>
    obtain ⟨rfl, rfl⟩ := h'.of_failed
    exact .refuse
  | stop =>
    obtain ⟨rfl, rfl⟩ := h'.of_done
    exact .stop

/-- A call that is answered with an error is the last one, and the sink has failed with the error. -/
theorem of_error (h : status.Hears calls status') {k : Nat} {t : Task Diff}
    (herror : calls[k]? = some (t, some error)) : calls.length = k + 1 ∧ status' = .failed error := by
  induction h generalizing k with
  | nothing => cases herror
  | accept _ ih =>
    cases k with
    | zero => cases herror
    | succ k =>
      obtain ⟨hlength, hstatus⟩ := ih herror
      exact ⟨congrArg (· + 1) hlength, hstatus⟩
  | refuse =>
    cases k with
    | zero =>
      cases herror
      exact ⟨rfl, rfl⟩
    | succ k => cases herror
  | stop => cases herror

end SinkStatus.Hears

/-! ## One event -/

theorem produce_withCalls (net : Network σ) (calls : List Consumer.Call) :
    (net.withCalls calls).produce settings = (net.produce settings).map (·.withCalls calls) := by
  have hsource : (net.withCalls calls).source = net.source := rfl
  have hshards : (net.withCalls calls).shards = net.shards := rfl
  have hqueue : (net.withCalls calls).inputQueue settings = net.inputQueue settings := rfl
  rw [Network.produce.eq_def, Network.produce.eq_def, hsource, hshards, hqueue]
  split
  · rfl
  · rfl
  · rfl
  · dsimp only
    split
    · rfl
    · split <;> rfl

theorem work_withCalls (net : Network σ) (calls : List Consumer.Call) (i : Nat) :
    (net.withCalls calls).work settings i = (net.work settings i).map (·.withCalls calls) := by
  have hshards : (net.withCalls calls).shards = net.shards := rfl
  rw [Network.work.eq_def, Network.work.eq_def, hshards]
  split
  · rfl
  · split
    · rfl
    · rfl
    · rw [Option.map_map]
      rfl
    · rw [Option.map_map]
      rfl

theorem stop_withCalls (net : Network σ) (calls : List Consumer.Call) :
    (net.withCalls calls).stop = net.stop.map (·.withCalls calls) := by
  have hsink : (net.withCalls calls).sink.isActive = net.sink.isActive := rfl
  have hshards : (net.withCalls calls).shards = net.shards := rfl
  rw [Network.stop, Network.stop, hsink, hshards]
  split <;> rfl

theorem sink_of_produce (h : net.produce settings = some net') : net'.sink = net.sink := by
  rcases produce_cases h with ⟨_, -, rfl⟩ | ⟨_, _, _, _, -, -, ⟨-, -, rfl⟩ | ⟨-, rfl⟩⟩
  · rfl
  · rfl
  · rfl

theorem sink_of_work {i : Nat} (h : net.work settings i = some net') : net'.sink = net.sink := by
  obtain ⟨_, _, -, -, -, rfl⟩ := work_cases h
  rfl

/-- An event leads from a network to another one, with calls noted down or without, and the sink hears
of these calls. -/
structure Network.Tells (settings : Settings) (consume : Consumer σ) (net : Network σ) (e : Event)
    (calls : List Consumer.Call) (net' : Network σ) : Prop where
  hears : net.sink.status.Hears calls net'.sink.status
  noted : ∀ before, (net.withCalls before).fire settings consume.noting e =
    some (net'.withCalls (before ++ calls))

/-- An event that the consumer has no part in. -/
theorem tells_nothing {e : Event} (h : net.fire settings consume e = some net')
    (hhears : net.sink.status.Hears [] net'.sink.status)
    (hsame : ∀ before, (net.withCalls before).fire settings consume.noting e =
      (net.fire settings consume e).map (·.withCalls before)) :
    net.Tells settings consume e [] net' where
  hears := hhears
  noted before := by
    rw [hsame, h, List.append_nil]
    rfl

theorem tells_of_stop (h : net.stop = some net') : net.Tells settings consume .stop [] net' := by
  refine tells_nothing h ?_ (stop_withCalls net)
  obtain ⟨hsink, -, rfl⟩ := stop_cases h
  rw [hsink]
  exact .stop

theorem after_noting {sink : Sink σ} {task : Task Diff} {state : σ} {answer : Option ShardingError}
    (h : consume sink.state task = (state, answer)) (calls : List Consumer.Call) :
    Sink.after consume.noting ⟨(sink.state, calls), sink.received, sink.status⟩ task =
      ⟨((sink.after consume task).state, calls ++ [(task, answer)]), (sink.after consume task).received,
        (sink.after consume task).status⟩ := by
  rw [Sink.after, Sink.after, Consumer.noting_eq h, h]
  cases answer <;> rfl

theorem exists_tells_of_drain {i : Nat} (h : net.drain settings consume i = some net') :
    ∃ calls, net.Tells settings consume (.drain i) calls net' := by
  obtain ⟨shard, hshard, hsink, hdrained, ⟨task, output, houtput, rfl⟩ | ⟨houtput, hworker, rfl⟩⟩ :=
    drain_cases h
  · rcases hanswer : consume net.sink.state task with ⟨state, answer⟩
    refine ⟨[(task, answer)], ?_, fun before => ?_⟩
    · rw [hsink]
      show SinkStatus.Hears _ _ (net.sink.after consume task).status
      rw [Sink.after, hanswer]
      cases answer with
      | none => exact .accept .nothing
      | some e => exact .refuse
    · have hdrain : (net.withCalls before).drain settings consume.noting i = some _ :=
        drain_of_cons hshard hsink hdrained houtput
      rw [Network.fire, hdrain]
      exact congrArg _ (congrArg _ (after_noting hanswer before))
  · refine ⟨[], .nothing, fun before => ?_⟩
    have hdrain : (net.withCalls before).drain settings consume.noting i = some _ :=
      drain_of_closed hshard hsink hdrained houtput hworker
    rw [Network.fire, hdrain, List.append_nil]
    rfl

/-- Every event tells the sink of a call at most. -/
theorem exists_tells {e : Event} (h : net.fire settings consume e = some net') :
    ∃ calls, net.Tells settings consume e calls net' := by
  cases e with
  | produce =>
    have hsink := sink_of_produce h
    exact ⟨[], tells_nothing h (hsink ▸ .nothing) (produce_withCalls net)⟩
  | work i =>
    have hsink := sink_of_work h
    exact ⟨[], tells_nothing h (hsink ▸ .nothing) fun before => work_withCalls net before i⟩
  | drain i => exact exists_tells_of_drain h
  | stop => exact ⟨[], tells_of_stop h⟩

/-! ## Runs -/

/-- What the sink hears of in a run is what is noted down, behind whatever was noted down before. -/
theorem exists_hears {events : List Event}
    (hevents : events.foldlM (Network.fire settings consume) net = some net') :
    ∃ calls, net.sink.status.Hears calls net'.sink.status ∧ ∀ before,
      events.foldlM (Network.fire settings consume.noting) (net.withCalls before) =
        some (net'.withCalls (before ++ calls)) := by
  induction events generalizing net with
  | nil =>
    obtain rfl := Option.some.inj hevents
    exact ⟨[], .nothing, fun before => by rw [List.append_nil]; rfl⟩
  | cons e events ih =>
    rw [List.foldlM_cons] at hevents
    obtain ⟨net₁, hfire, hrest⟩ := Option.bind_eq_some_iff.mp hevents
    obtain ⟨first, htells⟩ := exists_tells hfire
    obtain ⟨others, hothers, hnoted⟩ := ih hrest
    refine ⟨first ++ others, htells.hears.trans hothers, fun before => ?_⟩
    rw [List.foldlM_cons, htells.noted, ← List.append_assoc]
    exact hnoted (before ++ first)

theorem outcome_of_failed (h : net.sink.status = .failed error) :
    net.outcome settings = .error error := by
  rw [Network.outcome, h]

/-- A sharded run returns the first error of its consumer. Under valid settings, with as many shards as
one likes, and whatever order the steps are taken in: if the consumer answers a call with an error, no
call came after it and none will come, and a run that goes on from there until no part can take a step
has come to the end of all parts and returns that error, whatever has become of the source and the
workers. So does the run that takes the first step possible. -/
theorem returns_first_error (settings : Settings) (hvalid : settings.validate = .ok ()) (shards : Nat)
    (tasks : List (Task Revision)) (consume : Consumer σ) (initial : σ) :
    (∀ (events : List Event) (net : Network σ),
      events.foldlM (Network.fire settings consume) (Network.start shards tasks initial) = some net →
        ∃ calls, (Network.start shards tasks initial).Calls settings consume events calls net ∧
          ∀ (k : Nat) (task : Task Diff) (error : ShardingError), calls[k]? = some (task, some error) →
            calls.length = k + 1 ∧
            ∀ (events' : List Event) (net' : Network σ),
              events'.foldlM (Network.fire settings consume) net = some net' →
                net.Calls settings consume events' [] net' ∧
                (net'.Stuck settings consume →
                  net'.IsOver ∧ net'.outcome settings = .error error)) ∧
    ∃ events calls, (Network.start shards tasks initial).Calls settings consume events calls
        ((Network.start shards tasks initial).run settings consume (Network.bound shards tasks)) ∧
      ∀ task error, (task, some error) ∈ calls →
        run settings shards tasks consume initial = .error error := by
  have hcapacity := Settings.capacity_pos hvalid
  constructor
  · intro events net hevents
    obtain ⟨calls, hhears, hnoted⟩ := exists_hears hevents
    refine ⟨calls, hnoted [], fun k task error herror => ?_⟩
    obtain ⟨hlength, hfailed⟩ := hhears.of_error herror
    refine ⟨hlength, fun events' net' hevents' => ?_⟩
    obtain ⟨later, hhears', hnoted'⟩ := exists_hears hevents'
    rw [hfailed] at hhears'
    obtain ⟨rfl, hfailed'⟩ := hhears'.of_failed
    refine ⟨hnoted' [], fun hstuck => ⟨?_, outcome_of_failed hfailed'⟩⟩
    have horderly := orderly_run (orderly_run (orderly_start shards tasks initial) hevents) hevents'
    have hend : ¬ net'.CanStep settings consume := by
      rintro ⟨e, after, hfire⟩
      cases (hstuck e).symm.trans hfire
    exact horderly.isOver hcapacity hend
  · obtain ⟨events, hevents, -⟩ := exists_events_run settings consume (Network.bound shards tasks)
      (Network.start shards tasks initial)
    obtain ⟨calls, hhears, hnoted⟩ := exists_hears hevents
    refine ⟨events, calls, hnoted [], fun task error herror => ?_⟩
    obtain ⟨k, hk⟩ := List.mem_iff_getElem?.mp herror
    rw [run, hvalid]
    simp only [Except.mapError, bind, Except.bind, outcome_of_failed (hhears.of_error hk).2]

/-- A consumer that fails at its second call. A worker and then the source fail at closed queues, and the
run returns what the consumer said. -/
theorem returns_first_error_closed_queues :
    let settings : Settings := { Settings.default with capacity := 1 }
    let task (id : Nat) : Task Revision :=
      ⟨⟨id, "Lean"⟩, 0, .full, [⟨0, id, ⟨5, 0⟩, [0x61], "", .anonymous "::1", false⟩], 0⟩
    let start : Network Nat := Network.start 2 [task 7, task 9, task 5, task 3, task 1] 0
    let consume : Consumer Nat := fun n _ => (n + 1, if n = 1 then some (.consumer "full") else none)
    let events : List Event := [.produce, .work 1, .work 1, .drain 1, .produce, .work 1, .work 1,
      .produce, .work 1, .drain 1]
    ∃ net net', events.foldlM (Network.fire settings consume) start = some net ∧
      [Event.work 1, .produce, .work 0].foldlM (Network.fire settings consume) net = some net' ∧
      net'.workerFailure? settings = some (.closed outputStage) ∧ net'.IsOver ∧
      net'.outcome settings = .error (.consumer "full") := by
  intro settings task start consume events
  have hcome : (events.foldlM (Network.fire settings consume) start).any (fun net =>
      ([Event.work 1, .produce, .work 0].foldlM (Network.fire settings consume) net).any fun net' =>
        net'.workerFailure? settings = some (.closed outputStage) ∧
          net'.events.all fun e => (net'.fire settings consume e).isNone) = true := by
    decide +kernel
  obtain ⟨net, hevents, hrest⟩ := (Option.any_eq_true _ _).mp hcome
  obtain ⟨net', hevents', hends⟩ := (Option.any_eq_true _ _).mp hrest
  simp only [decide_eq_true_eq, List.all_eq_true, Option.isNone_iff_eq_none] at hends
  have hanswers : (events.foldlM (Network.fire settings consume.noting) (start.withCalls [])).map
      (fun net => net.sink.state.2.map Prod.snd) = some [none, some (.consumer "full")] := by
    decide +kernel
  obtain ⟨calls, hcalls, herror⟩ := (returns_first_error settings rfl 2
    [task 7, task 9, task 5, task 3, task 1] consume 0).1 events net hevents
  rw [show _ = some (net.withCalls calls) from hcalls] at hanswers
  have hanswered : calls.map Prod.snd = [none, some (.consumer "full")] := Option.some.inj hanswers
  have hsecond : (calls.map Prod.snd)[1]? = some (some (.consumer "full")) := by
    rw [hanswered]
    rfl
  rw [List.getElem?_map] at hsecond
  obtain ⟨⟨t, -⟩, hcall, rfl⟩ := Option.map_eq_some_iff.mp hsecond
  obtain ⟨-, hlater⟩ := herror 1 t _ hcall
  obtain ⟨hover, houtcome⟩ := (hlater _ net' hevents').2 (stuck_of_events hends.2)
  exact ⟨net, net', hevents, hevents', hends.1, hover, houtcome⟩

end Sharding
end EditHistory
