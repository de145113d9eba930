import EditHistory.Archive.Recorder

/-! Bounded queues between the stages of a sharded run. -/
namespace EditHistory

/-- What stops a sharded run. -/
inductive ShardingError where
  /-- A queue stood still for longer than it may, in milliseconds. -/
  | timeout (stage : String) (timeout : Nat)
  /-- The other end of a queue is gone. -/
  | closed (stage : String)
  | consumer (message : String)
  | recorder (error : RecorderError)
deriving DecidableEq, Repr

/-- The digits behind the point of a fraction of a thousand, without zeros at the end. -/
def thousandthsText (n : Nat) : String :=
  let digits := [n / 100 % 10, n / 10 % 10, n % 10].map fun d => Char.ofNat (48 + d)
  let kept := (digits.reverse.dropWhile (· == '0')).reverse
  if kept.isEmpty then "" else "." ++ String.ofList kept

/-- A span of milliseconds in the largest unit that does not exceed it. -/
def spanText (milliseconds : Nat) : String :=
  if milliseconds = 0 then "0ns"
  else if milliseconds < 1000 then s!"{milliseconds}ms"
  else s!"{milliseconds / 1000}{thousandthsText (milliseconds % 1000)}s"

def ShardingError.message : ShardingError → String
  | .timeout stage span => s!"{stage} queue: no progress within {spanText span}"
  | .closed stage => s!"{stage} queue closed"
  | .consumer message => s!"consumer failed: {message}"
  | .recorder error => error.message

structure Queue (α : Type) where
  capacity : Nat
  items : List α
  hasSender : Bool
  hasReceiver : Bool

namespace Queue

variable {α : Type}

/-- Why a queue cannot go on. -/
inductive Stop where
  /-- It has to wait for the other end. -/
  | blocked
  /-- The other end is gone. -/
  | closed
deriving DecidableEq, Repr

def empty (capacity : Nat) : Queue α := ⟨capacity, [], true, true⟩

def send (q : Queue α) (item : α) : Except Stop (Queue α) :=
  if !q.hasReceiver then .error .closed
  else if q.items.length < q.capacity then .ok { q with items := q.items ++ [item] }
  else .error .blocked

/-- The next item; none once the sender is gone and nothing is left. -/
def receive (q : Queue α) : Except Stop (Option α × Queue α) :=
  match q.items with
  | item :: rest => .ok (some item, { q with items := rest })
  | [] => if q.hasSender then .error .blocked else .ok (none, q)

def closeSender (q : Queue α) : Queue α := { q with hasSender := false }

/-- Items that nobody can receive any more are lost. -/
def closeReceiver (q : Queue α) : Queue α := { q with hasReceiver := false, items := [] }

/-- The error that a stop of a stage with a timeout leads to. -/
def Stop.error (stage : String) (timeout : Nat) : Stop → ShardingError
  | .blocked => .timeout stage timeout
  | .closed => .closed stage

end Queue
end EditHistory
