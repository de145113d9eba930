import EditHistory.Archive.Revision
import EditHistory.Patch.Apply
import EditHistory.Text.Decimal

/-! Replaying stored diffs. A revision is rebuilt from the nearest full revision at or before it. -/
namespace EditHistory

inductive ReplayError where
  | missingCheckpoint (counter : Nat)
  | gap (expected found : Nat)
  | notFound (counter : Nat)
  | apply (counter : Nat) (error : ApplyError)
deriving DecidableEq, Repr

def ReplayError.message : ReplayError → String
  | .missingCheckpoint counter => s!"no full revision at or before counter {counter}"
  | .gap expected found => s!"revision counter gap: expected {expected}, found {found}"
  | .notFound counter => s!"revision counter {counter} not found"
  | .apply counter error => s!"revision counter {counter}: {error.message}"

/-- The text after the last diff and the counter of that diff. -/
structure Replayer where
  current : Option Text
  counter : Nat
deriving DecidableEq, Repr

namespace Replayer

def start : Replayer := ⟨none, 0⟩

/-- The counter after a given one; counters are 64-bit words. -/
def next (counter : Nat) : Nat := (counter + 1) % Decimal.wordLimit

/-- Applies a patch and moves on to a counter. -/
def advance (counter : Nat) (patch : Patch) (base : Text) :
    Except ReplayError (Text × Replayer) := do
  let text ← (patch.apply base).mapError (.apply counter)
  return (text, ⟨some text, counter⟩)

/-- Applies the next diff. The first has to be full, after that counters have to be consecutive. -/
def push (r : Replayer) (d : Diff) : Except ReplayError (Text × Replayer) :=
  match r.current with
  | none => if d.isFull then advance d.counter d.patch [] else .error (.missingCheckpoint d.counter)
  | some base =>
    if d.counter = next r.counter then advance d.counter d.patch base
    else .error (.gap (next r.counter) d.counter)

/-- The texts after each of the given diffs. -/
def texts (r : Replayer) : List Diff → Except ReplayError (List Text)
  | [] => .ok []
  | d :: rest => do
    let (text, r) ← r.push d
    return text :: (← texts r rest)

/-- The text after all of the given diffs. -/
def run (r : Replayer) : List Diff → Except ReplayError Replayer
  | [] => .ok r
  | d :: rest => do
    let (_, r) ← r.push d
    run r rest

end Replayer

namespace Replay

/-- The index of a counter among `count` ascending ones from `low` on, by bisection. -/
def search (counters : Array Nat) (target low : Nat) (count : Nat) : Option Nat :=
  if count = 0 then none
  else
    let half := count / 2
    match counters[low + half]? with
    | none => none
    | some c =>
      if c = target then some (low + half)
      else if c < target then search counters target (low + half + 1) (count - half - 1)
      else search counters target low half
termination_by count
decreasing_by all_goals omega

/-- The index of the last full diff up to an index. -/
def checkpoint? (diffs : List Diff) (last : Nat) : Option Nat :=
  ((diffs.take (last + 1)).reverse.findIdx? Diff.isFull).map fun i => last - i

/-- The indices of the diffs that a counter needs: the first, and the one behind the last. The
diffs have to stand in the order of their counters. -/
def range (diffs : List Diff) (counter : Nat) : Except ReplayError (Nat × Nat) :=
  match search (diffs.map Diff.counter).toArray counter 0 diffs.length with
  | none => .error (.notFound counter)
  | some last =>
    match checkpoint? diffs last with
    | none => .error (.missingCheckpoint counter)
    | some first => .ok (first, last + 1)

/-- Rebuilds the revision stored under a counter. -/
def reconstruct (diffs : List Diff) (counter : Nat) : Except ReplayError Text := do
  let (first, stop) ← range diffs counter
  let r ← Replayer.start.run ((diffs.take stop).drop first)
  match r.current with
  | some text => return text
  | none => throw (.missingCheckpoint counter)

/-- Rebuilds every stored revision. -/
def reconstructAll (diffs : List Diff) : Except ReplayError (List Text) :=
  Replayer.start.texts diffs

end Replay
end EditHistory
