import EditHistory.Sharding.Queue

/-! The sharded run as a network of steps. A source sends every task to the shard of its article;
a worker for each shard records what it receives and sends on the tasks that are done; a sink takes
them from whichever shard has one. The steps that are possible in a state may be taken in any
order. -/
namespace EditHistory

/-- The shard of an article. -/
def shardOf (articleId shards : Nat) : Nat := articleId % max shards 1

/-- What consumes the finished tasks: it may change its own state and stop the run. -/
abbrev Consumer (σ : Type) := σ → Task Diff → σ × Option ShardingError

/-- What a shard worker reports. -/
structure WorkerReport where
  tasksIn : Nat
  tally : Tally
  errors : List RecorderError

structure ShardingReport where
  tasksIn : Nat
  tasksOut : Nat
  tally : Tally
  errors : List RecorderError

namespace Sharding

/-- Names of the two kinds of queues. -/
def inputStage : String := "revision"
def outputStage : String := "diff"

inductive Source where
  | sending (rest : List (Task Revision)) (sent : Nat)
  | done (sent : Nat)
  | failed (error : ShardingError)

namespace Source

def isActive : Source → Bool
  | sending .. => true
  | done _ | failed _ => false

end Source

inductive Worker where
  /-- A worker with finished tasks that it still has to send on. -/
  | running (recorder : Recorder) (pending : List (Task Diff)) (tasksIn : Nat)
      (errors : List RecorderError)
  | done (report : WorkerReport)
  | failed (error : ShardingError)

namespace Worker

def isActive : Worker → Bool
  | running .. => true
  | done _ | failed _ => false

end Worker

/-- A shard: its two queues, its worker, and whether the sink has seen its end. -/
structure Shard where
  input : List (Task Revision)
  worker : Worker
  output : List (Task Diff)
  drained : Bool

def Shard.start : Shard := ⟨[], .running .start [] 0 [], [], false⟩

inductive SinkStatus where
  | draining
  | done
  | failed (error : ShardingError)

structure Sink (σ : Type) where
  state : σ
  received : Nat
  status : SinkStatus

def Sink.isActive {σ : Type} (s : Sink σ) : Bool :=
  match s.status with
  | .draining => true
  | .done | .failed _ => false

structure Network (σ : Type) where
  source : Source
  shards : List Shard
  sink : Sink σ

/-- Who takes a step. -/
inductive Event where
  | produce
  | work (shard : Nat)
  | drain (shard : Nat)
  /-- The sink ends once all shards are drained. -/
  | stop
deriving DecidableEq, Repr

namespace Network

variable {σ : Type}

def start (shards : Nat) (tasks : List (Task Revision)) (state : σ) : Network σ :=
  ⟨.sending tasks 0, List.replicate (max shards 1) Shard.start, ⟨state, 0, .draining⟩⟩

def inputQueue (settings : Settings) (net : Network σ) (shard : Shard) : Queue (Task Revision) :=
  ⟨settings.capacity, shard.input, net.source.isActive, shard.worker.isActive⟩

def outputQueue (settings : Settings) (net : Network σ) (shard : Shard) : Queue (Task Diff) :=
  ⟨settings.capacity, shard.output, shard.worker.isActive, net.sink.isActive⟩

def setShard (net : Network σ) (i : Nat) (shard : Shard) : Network σ :=
  { net with shards := net.shards.set i shard }

/-- The source sends its next task, or ends. -/
def produce (settings : Settings) (net : Network σ) : Option (Network σ) :=
  match net.source with
  | .done _ | .failed _ => none
  | .sending [] sent => some { net with source := .done sent }
  | .sending (task :: rest) sent =>
    let i := shardOf task.heading.articleId net.shards.length
    match net.shards[i]? with
    | none => none
    | some shard =>
      match (net.inputQueue settings shard).send task with
      | .ok q => some { net.setShard i { shard with input := q.items } with source := .sending rest (sent + 1) }
      | .error .closed => some { net with source := .failed (.closed inputStage) }
      | .error .blocked => none

/-- A worker without pending tasks receives and records the next one, or ends. -/
def receive (settings : Settings) (net : Network σ) (shard : Shard) (recorder : Recorder)
    (tasksIn : Nat) (errors : List RecorderError) : Option Shard :=
  match (net.inputQueue settings shard).receive with
  | .error _ => none
  | .ok (none, _) => some { shard with worker := .done ⟨tasksIn, recorder.reset.1.tally, errors⟩ }
  | .ok (some task, q) =>
    let answer := recorder.process settings task
    let worker : Worker :=
      match answer.result with
      | .ok done => .running answer.recorder done (tasksIn + 1) errors
      | .error e => .running answer.recorder [] (tasksIn + 1) (errors ++ [e])
    some { shard with input := q.items, worker := worker }

/-- A worker sends on the first of its pending tasks. -/
def forward (settings : Settings) (net : Network σ) (shard : Shard) (recorder : Recorder)
    (task : Task Diff) (pending : List (Task Diff)) (tasksIn : Nat) (errors : List RecorderError) :
    Option Shard :=
  match (net.outputQueue settings shard).send task with
  | .ok q => some { shard with worker := .running recorder pending tasksIn errors, output := q.items }
  | .error .closed => some { shard with worker := .failed (.closed outputStage), input := [] }
  | .error .blocked => none

def work (settings : Settings) (net : Network σ) (i : Nat) : Option (Network σ) :=
  match net.shards[i]? with
  | none => none
  | some shard =>
    match shard.worker with
    | .done _ | .failed _ => none
    | .running recorder [] tasksIn errors =>
      (net.receive settings shard recorder tasksIn errors).map (net.setShard i)
    | .running recorder (task :: pending) tasksIn errors =>
      (net.forward settings shard recorder task pending tasksIn errors).map (net.setShard i)

/-- The sink hands a finished task of a shard to the consumer, or sees that no more will come. -/
def drain (settings : Settings) (consume : Consumer σ) (net : Network σ) (i : Nat) :
    Option (Network σ) :=
  match net.shards[i]? with
  | none => none
  | some shard =>
    if !net.sink.isActive || shard.drained then none
    else
      match (net.outputQueue settings shard).receive with
      | .error _ => none
      | .ok (none, _) => some (net.setShard i { shard with drained := true })
      | .ok (some task, q) =>
        let sink : Sink σ :=
          match consume net.sink.state task with
          | (state, none) => ⟨state, net.sink.received + 1, .draining⟩
          | (state, some e) => ⟨state, net.sink.received, .failed e⟩
        some { net.setShard i { shard with output := q.items } with sink := sink }

def stop (net : Network σ) : Option (Network σ) :=
  if net.sink.isActive && net.shards.all Shard.drained then
    some { net with sink := { net.sink with status := .done } }
  else none

/-- The state after a step, if it is possible. -/
def fire (settings : Settings) (consume : Consumer σ) (net : Network σ) : Event → Option (Network σ)
  | .produce => net.produce settings
  | .work i => net.work settings i
  | .drain i => net.drain settings consume i
  | .stop => net.stop

/-- All that could take a step. -/
def events (net : Network σ) : List Event :=
  let shards := List.range net.shards.length
  .stop :: shards.map .drain ++ shards.map .work ++ [.produce]

/-- Takes possible steps as long as there are any, at most `fuel` of them. -/
def run (settings : Settings) (consume : Consumer σ) : (fuel : Nat) → Network σ → Network σ
  | 0, net => net
  | fuel + 1, net =>
    match net.events.findSome? (net.fire settings consume) with
    | none => net
    | some net => run settings consume fuel net

/-- More steps than a run of these tasks over so many shards can take: a task is sent, received,
and leads to at most one task for each of its revisions and one more, which is sent and consumed. -/
def bound (shards : Nat) (tasks : List (Task Revision)) : Nat :=
  tasks.foldr (fun t sum => 2 * t.items.length + 4 + sum) 0 + 2 * max shards 1 + 2

/-- The first failure among the workers. -/
def workerFailure? (settings : Settings) (net : Network σ) : Option ShardingError :=
  net.shards.findSome? fun shard =>
    match shard.worker with
    | .done _ => none
    | .failed e => some e
    | .running .. => some (.timeout inputStage settings.timeout)

/-- The reports of the workers that ended well. -/
def reports (net : Network σ) : List WorkerReport :=
  net.shards.filterMap fun shard =>
    match shard.worker with
    | .done report => some report
    | .failed _ | .running .. => none

/-- What a run leads to: the failure of the sink first, then of the source, then of a worker. A
part that has not ended stands still. -/
def outcome (settings : Settings) (net : Network σ) : Except ShardingError ShardingReport :=
  match net.sink.status with
  | .failed e => .error e
  | .draining => .error (.timeout outputStage settings.timeout)
  | .done =>
    match net.source with
    | .failed e => .error e
    | .sending .. => .error (.timeout inputStage settings.timeout)
    | .done sent =>
      match net.workerFailure? settings with
      | some e => .error e
      | none =>
        .ok ⟨sent, net.sink.received, (net.reports.map WorkerReport.tally).foldl Tally.add Tally.zero,
          net.reports.flatMap WorkerReport.errors⟩

end Network

/-- Runs tasks over a number of shards and hands every finished task to the consumer. -/
def run {σ : Type} (settings : Settings) (shards : Nat) (tasks : List (Task Revision))
    (consume : Consumer σ) (state : σ) : Except ShardingError (ShardingReport × σ) := do
  settings.validate.mapError fun e => .recorder (.settings e)
  let net := (Network.start shards tasks state).run settings consume (Network.bound shards tasks)
  return (← net.outcome settings, net.sink.state)

/-- Records the tasks of one article with a recorder of its own. -/
def recordArticle (settings : Settings) (tasks : List (Task Revision)) :
    Except RecorderError (List (Task Diff)) := do
  go (← Recorder.create settings) tasks
where
  go (r : Recorder) : List (Task Revision) → Except RecorderError (List (Task Diff))
    | [] => .ok []
    | task :: rest => do
      let answer := r.process settings task
      return (← answer.result) ++ (← go answer.recorder rest)

/-- Records articles independently of each other. -/
def recordArticles (settings : Settings) (articles : List (List (Task Revision))) :
    List (Except RecorderError (List (Task Diff))) :=
  articles.map (recordArticle settings)

end Sharding
end EditHistory
