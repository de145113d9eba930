import EditHistory.Proofs.Sharding.Progress

/-! A sharded run delivers what one recorder makes of all tasks, in whatever order the parts of the
network take their steps. -/
namespace EditHistory

theorem Settings.capacity_pos {settings : Settings} (h : settings.validate = .ok ()) :
    0 < settings.capacity := by
  refine Nat.pos_of_ne_zero fun hzero => ?_
  simp only [Settings.validate, hzero, if_true] at h
  split_ifs at h

namespace Sharding

open Recorder (recorded finished refused)

variable {σ : Type} {settings : Settings} {consume : Consumer σ} {net net' : Network σ}
  {tasks sent : List (Task Revision)} {delivered : List (Task Diff)} {initial : σ}

/-! ## Runs -/

/-- Events that happen keep everything in its place, and there are no more of them than there were
steps left. -/
theorem Network.Keeps.run (h : net.Keeps settings consume tasks initial sent delivered)
    (htexts : ∀ task ∈ tasks, ∀ x ∈ task.items, x.text.IsShort)
    (hconsume : ∀ s t, (consume s t).2 = none) {events : List Event}
    (hevents : events.foldlM (Network.fire settings consume) net = some net') :
    (∃ sent' delivered', net'.Keeps settings consume tasks initial sent' delivered') ∧
      events.length + net'.remaining ≤ net.remaining := by
  induction events generalizing net sent delivered with
  | nil =>
    obtain rfl := Option.some.inj hevents
    exact ⟨⟨sent, delivered, h⟩, Nat.le_of_eq (Nat.zero_add _)⟩
  | cons e events ih =>
    rw [List.foldlM_cons] at hevents
    cases hfire : net.fire settings consume e with
    | none =>
      rw [hfire] at hevents
      cases hevents
    | some net₁ =>
      rw [hfire] at hevents
      have hstep := step_of_fire h.live hconsume hfire
      obtain ⟨sent₁, delivered₁, hnext⟩ := h.step htexts hstep
      obtain ⟨hkeeps, hlength⟩ := ih hnext hevents
      have hless := remaining_lt h htexts hstep
      refine ⟨hkeeps, ?_⟩
      rw [List.length_cons]
      omega

/-- No part of a network can take a step. -/
def Network.Stuck (settings : Settings) (consume : Consumer σ) (net : Network σ) : Prop :=
  ∀ e, net.fire settings consume e = none

theorem stuck_of_events (h : ∀ e ∈ net.events, net.fire settings consume e = none) :
    net.Stuck settings consume := by
  intro e
  have hrange : ∀ i, ¬ i < net.shards.length → net.shards[i]? = none := fun i hi => by simpa using hi
  cases e with
  | produce => exact h _ (by simp [Network.events])
  | stop => exact h _ (by simp [Network.events])
  | work i =>
    by_cases hi : i < net.shards.length
    · exact h _ (by simp [Network.events, hi])
    · rw [Network.fire, Network.work, hrange i hi]
  | drain i =>
    by_cases hi : i < net.shards.length
    · exact h _ (by simp [Network.events, hi])
    · rw [Network.fire, Network.drain, hrange i hi]

/-- A run takes steps until it has taken as many as it may or until there is none to take. -/
theorem exists_events_run (settings : Settings) (consume : Consumer σ) (fuel : Nat) (net : Network σ) :
    ∃ events : List Event,
      events.foldlM (Network.fire settings consume) net = some (net.run settings consume fuel) ∧
        (events.length = fuel ∨ (net.run settings consume fuel).Stuck settings consume) := by
  induction fuel generalizing net with
  | zero => exact ⟨[], rfl, .inl rfl⟩
  | succ fuel ih =>
    rw [Network.run]
    cases hnext : net.events.findSome? (net.fire settings consume) with
    | none => exact ⟨[], rfl, .inr (stuck_of_events (List.findSome?_eq_none_iff.mp hnext))⟩
    | some net₁ =>
      obtain ⟨e, -, hfire⟩ := List.exists_of_findSome?_eq_some hnext
      obtain ⟨events, hevents, hend⟩ := ih net₁
      refine ⟨e :: events, ?_, hend.imp (fun h => congrArg (· + 1) h) id⟩
      rw [List.foldlM_cons, hfire]
      exact hevents

/-- The run that takes as many steps as are left comes to its end. -/
theorem Network.Keeps.run_to_end (h : net.Keeps settings consume tasks initial sent delivered)
    (htexts : ∀ task ∈ tasks, ∀ x ∈ task.items, x.text.IsShort)
    (hconsume : ∀ s t, (consume s t).2 = none) :
    (∃ sent' delivered', (net.run settings consume net.remaining).Keeps settings consume tasks initial
      sent' delivered') ∧ (net.run settings consume net.remaining).Stuck settings consume := by
  obtain ⟨events, hevents, hend⟩ := exists_events_run settings consume net.remaining net
  obtain ⟨⟨sent', delivered', hkeeps⟩, hlength⟩ := h.run htexts hconsume hevents
  refine ⟨⟨sent', delivered', hkeeps⟩, ?_⟩
  rcases hend with hfull | hstuck
  · intro e
    cases hfire : (net.run settings consume net.remaining).fire settings consume e with
    | none => rfl
    | some net' =>
      -- a further step would be one more than were left
      have hless := remaining_lt hkeeps htexts (step_of_fire hkeeps.live hconsume hfire)
      omega
  · exact hstuck

/-! ## The end of a run -/

/-- What a run has led to is what one recorder makes of all tasks: as many tasks, the same counts, the
same errors in some order, and to the consumer, for every article, the same finished tasks in the same
order. -/
structure Faithful (settings : Settings) (consume : Consumer σ) (tasks : List (Task Revision))
    (initial : σ) (report : ShardingReport) (final : σ) : Prop where
  tasksIn_eq : report.tasksIn = tasks.length
  tally_eq : report.tally = (recorded settings tasks).tally
  errors_perm : report.errors.Perm (refused settings tasks)
  delivers : ∃ delivered : List (Task Diff),
    final = delivered.foldl (fun s t => (consume s t).1) initial ∧
      report.tasksOut = delivered.length ∧
      ∀ id, (delivered.filter fun t => t.heading.articleId = id) =
        (finished settings tasks).filter fun t => t.heading.articleId = id

/-- A shard of which everything was taken. -/
def endOf (settings : Settings) (tasks : List (Task Revision)) : Shard :=
  ⟨[], .done ⟨tasks.length, (recorded settings tasks).tally, refused settings tasks⟩, [], true⟩

theorem Shard.Keeps.ended {shard : Shard} {more : Bool} {assigned : List (Task Revision)}
    {handed : List (Task Diff)} (h : shard.Keeps settings more assigned handed)
    (hdrained : shard.drained = true) :
    more = false ∧ shard = endOf settings assigned ∧ handed = finished settings assigned := by
  cases h with
  | running => cases hdrained
  | @done output drained hmore hfinished hempty =>
    obtain rfl : drained = true := hdrained
    obtain rfl := hempty rfl
    exact ⟨hmore, rfl, (List.append_nil handed).symm.trans hfinished⟩

theorem Source.Keeps.ended {source : Source} (h : source.Keeps tasks sent)
    (hinactive : source.isActive = false) : source = .done tasks.length ∧ sent = tasks := by
  cases h with
  | sending => cases hinactive
  | done => exact ⟨rfl, rfl⟩

namespace Network.Keeps

/-- A network that is stuck has come to its end. -/
theorem ended (h : net.Keeps settings consume tasks initial sent delivered)
    (hconsume : ∀ s t, (consume s t).2 = none) (hcapacity : 0 < settings.capacity)
    (hstuck : net.Stuck settings consume) :
    net.sink.status = .done ∧ net.source = .done tasks.length ∧
      ∀ i (hi : i < net.shards.length),
        net.shards[i] = endOf settings (share net.shards.length i tasks) ∧
        (delivered.filter fun t => shardOf t.heading.articleId net.shards.length = i) =
          finished settings (share net.shards.length i tasks) := by
  rcases h.status with hdraining | ⟨hdone, hdrained⟩
  · obtain ⟨net', hstep⟩ := h.exists_step hcapacity hdraining
    obtain ⟨e, hfire⟩ := exists_fire_of_step hconsume hstep
    cases (hstuck e).symm.trans hfire
  · have hshard : ∀ i (hi : i < net.shards.length), net.source.isActive = false ∧
        net.shards[i] = endOf settings (share net.shards.length i sent) ∧
        (delivered.filter fun t => shardOf t.heading.articleId net.shards.length = i) =
          finished settings (share net.shards.length i sent) := fun i hi =>
      (h.shards i _ (List.getElem?_eq_getElem hi)).ended (hdrained _ (List.getElem_mem hi))
    obtain ⟨hsource, rfl⟩ := h.source.ended (hshard 0 h.nonempty).1
    exact ⟨hdone, hsource, fun i hi => (hshard i hi).2⟩

end Network.Keeps

theorem outcome_of_ended {ends : List (List (Task Revision))} {n : Nat}
    (hsink : net.sink.status = .done) (hsource : net.source = .done n)
    (hshards : net.shards = ends.map (endOf settings)) :
    net.outcome settings = .ok ⟨n, net.sink.received,
      (ends.map fun tasks => (recorded settings tasks).tally).sum, ends.flatMap (refused settings)⟩ := by
  have hfailure : net.workerFailure? settings = none := by
    rw [Network.workerFailure?, hshards, List.findSome?_eq_none_iff]
    intro shard hshard
    obtain ⟨tasks, -, rfl⟩ := List.mem_map.mp hshard
    rfl
  have hreports : net.reports = ends.map fun tasks =>
      ⟨tasks.length, (recorded settings tasks).tally, refused settings tasks⟩ := by
    rw [Network.reports, hshards, List.filterMap_map, ← List.filterMap_eq_map]
    rfl
  rw [Network.outcome, hsink, hsource]
  dsimp only
  rw [hfailure, hreports, List.map_map, List.flatMap_map, List.sum_eq_foldl]
  rfl

/-- A network that is stuck has ended well. -/
theorem Network.Keeps.faithful (h : net.Keeps settings consume tasks initial sent delivered)
    (htexts : ∀ task ∈ tasks, ∀ x ∈ task.items, x.text.IsShort)
    (hcontiguous : Recorder.Contiguous (tasks.map fun t => t.heading.articleId))
    (hconsume : ∀ s t, (consume s t).2 = none) (hcapacity : 0 < settings.capacity)
    (hstuck : net.Stuck settings consume) :
    ∃ report, net.outcome settings = .ok report ∧
      Faithful settings consume tasks initial report net.sink.state := by
  obtain ⟨hsink, hsource, hends⟩ := h.ended hconsume hcapacity hstuck
  have hshards : net.shards = ((List.range net.shards.length).map fun i =>
      share net.shards.length i tasks).map (endOf settings) := by
    refine List.ext_getElem (by simp) fun i hi _ => ?_
    rw [(hends i hi).1]
    simp
  refine ⟨_, outcome_of_ended hsink hsource hshards, rfl, ?_, ?_, delivered, h.state_eq,
    h.received_eq, ?_⟩
  · rw [List.map_map]
    exact Recorder.tally_share h.nonempty hcontiguous htexts
  · rw [List.flatMap_map]
    exact Recorder.refused_share h.nonempty hcontiguous htexts
  · intro id
    have hshard := (hends _ (shardOf_lt id h.nonempty)).2
    rw [← Recorder.finished_share hcontiguous htexts id, ← hshard, List.filter_filter]
    refine List.filter_congr fun t _ => ?_
    by_cases hid : t.heading.articleId = id <;> simp [hid]

/-- A sharded run is faithful to a single recorder. Under valid settings, with as many shards as one
likes and a consumer that does not fail, let tasks come in in which the tasks of an article are next to
each other. Then, whatever order the steps are taken in, a run comes to an end, and a run at its end has
led to what one recorder makes of the tasks; so has the run that takes the first step possible. -/
theorem run_faithful (settings : Settings) (hvalid : settings.validate = .ok ()) (shards : Nat)
    (tasks : List (Task Revision))
    (hcontiguous : Recorder.Contiguous (tasks.map fun t => t.heading.articleId))
    (htexts : ∀ task ∈ tasks, ∀ x ∈ task.items, 3 * x.text.length < 1 <<< 31)
    (consume : Consumer σ) (hconsume : ∀ s t, (consume s t).2 = none) (initial : σ) :
    (∀ (events : List Event) (net : Network σ),
      events.foldlM (Network.fire settings consume) (Network.start shards tasks initial) = some net →
        events.length ≤ Network.bound shards tasks ∧
        (net.Stuck settings consume → ∃ report, net.outcome settings = .ok report ∧
          Faithful settings consume tasks initial report net.sink.state)) ∧
    ∃ report final, run settings shards tasks consume initial = .ok (report, final) ∧
      Faithful settings consume tasks initial report final := by
  have hshort : ∀ task ∈ tasks, ∀ x ∈ task.items, x.text.IsShort :=
    fun task htask x hx => Text.isShort_of_lt (htexts task htask x hx)
  have hstart := keeps_start settings consume shards tasks initial
  have hcapacity := Settings.capacity_pos hvalid
  constructor
  · intro events net hevents
    obtain ⟨⟨sent, delivered, hkeeps⟩, hlength⟩ := hstart.run hshort hconsume hevents
    rw [remaining_start] at hlength
    exact ⟨by omega, hkeeps.faithful hshort hcontiguous hconsume hcapacity⟩
  · obtain ⟨⟨sent, delivered, hkeeps⟩, hstuck⟩ := hstart.run_to_end hshort hconsume
    rw [remaining_start] at hkeeps hstuck
    obtain ⟨report, houtcome, hfaithful⟩ :=
      hkeeps.faithful hshort hcontiguous hconsume hcapacity hstuck
    refine ⟨report, _, ?_, hfaithful⟩
    rw [run, hvalid]
    simp only [Except.mapError, bind, Except.bind, houtcome]
    rfl

/-- Two shards with queues of one task each, three articles, and a task that comes in vain. -/
theorem run_faithful_two_shards :
    let settings : Settings := { Settings.default with capacity := 1 }
    let tasks : List (Task Revision) :=
      [⟨⟨7, "Lean"⟩, 0, .first, [⟨0, 11, ⟨5, 0⟩, [0x61], "", .anonymous "::1", false⟩], 0⟩,
        ⟨⟨7, "Lean"⟩, 1, .last, [⟨1, 12, ⟨6, 0⟩, [0x61, 0x62], "", .anonymous "::1", false⟩], 0⟩,
        ⟨⟨9, "Rust"⟩, 3, .last, [⟨2, 13, ⟨7, 0⟩, [0x63], "", .anonymous "::1", false⟩], 0⟩,
        ⟨⟨8, "Diff"⟩, 0, .full, [⟨3, 14, ⟨8, 0⟩, [0x64], "", .anonymous "::1", false⟩], 0⟩]
    ∃ report collected,
      run settings 2 tasks (fun out t => (out ++ [t], none)) [] = .ok (report, collected) ∧
        report.tasksIn = 4 ∧ report.tasksOut = collected.length ∧
        report.errors.Perm (refused settings tasks) ∧
        ∀ id, (collected.filter fun t => t.heading.articleId = id) =
          (finished settings tasks).filter fun t => t.heading.articleId = id := by
  intro settings tasks
  obtain ⟨-, report, collected, hrun, hfaithful⟩ := run_faithful settings rfl 2 tasks
    (by intro x y h; simp [tasks, List.sublist_cons_iff] at h; omega) (by decide)
    (fun out t => (out ++ [t], none)) (fun _ _ => rfl) []
  obtain ⟨delivered, rfl, hlength, hdelivered⟩ := hfaithful.delivers
  have hcollected : delivered.foldl (fun out t => out ++ [t]) [] = delivered := by
    simp [← List.flatMap_def]
  refine ⟨report, _, hrun, hfaithful.tasksIn_eq, ?_, hfaithful.errors_perm, ?_⟩
  · rw [hcollected, hlength]
  · rwa [hcollected]

end Sharding
end EditHistory
