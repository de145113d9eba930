import EditHistory.Patch.Basic
import EditHistory.Wire.Widths

/-! Revisions of an article as they are read, and the diffs that are stored for them. -/
namespace EditHistory

/-- A point in time: whole seconds since 1970 and the nanoseconds behind them. Leap seconds are not
counted: in one the nanoseconds go on past the end of the second before it. -/
structure Instant where
  seconds : Int
  nanos : Nat
deriving DecidableEq, Repr

namespace Instant

def nanosPerSecond : Nat := 1000000000

def ofSeconds (seconds : Int) : Instant := ⟨seconds, 0⟩

/-- A leap second can only follow the last second of a minute. -/
def isValid (t : Instant) : Bool :=
  t.nanos < nanosPerSecond || (t.nanos < 2 * nanosPerSecond && t.seconds % 60 == 59)

def ofParts? (seconds : Int) (nanos : Nat) : Option Instant :=
  let t : Instant := ⟨seconds, nanos⟩
  if t.isValid then some t else none

/-- Is one instant not later than another? -/
def notAfter (x y : Instant) : Bool :=
  x.seconds < y.seconds || (x.seconds == y.seconds && x.nanos ≤ y.nanos)

end Instant

/-- Who made an edit: a registered user or an address. -/
inductive Contributor where
  | registered (id : Option Nat) (name : String)
  | anonymous (address : String)
deriving DecidableEq, Repr

/-- The user name or the address. -/
def Contributor.name : Contributor → String
  | .registered _ name => name
  | .anonymous address => address

structure Revision where
  /-- The position of the revision in its article, as read. -/
  sequence : Nat
  id : Nat
  timestamp : Instant
  text : Text
  comment : String
  contributor : Contributor
  minor : Bool
deriving DecidableEq, Repr

/-- The chronological order: by time, then as read. -/
def Revision.notAfter (x y : Revision) : Bool :=
  if x.timestamp = y.timestamp then x.sequence ≤ y.sequence else x.timestamp.notAfter y.timestamp

/-- A stored revision: the patch that leads to it from the one stored before. -/
structure Diff where
  /-- The position among the stored diffs of the article, from one on. -/
  counter : Nat
  revisionId : Nat
  timestamp : Instant
  comment : String
  contributor : Contributor
  minor : Bool
  patch : Patch
  /-- The widths that the patch is written with. -/
  widths : Widths
deriving DecidableEq, Repr

/-- Does the diff start with a whole text, so that it can be applied to any text? -/
def Diff.isFull (d : Diff) : Bool := d.patch.head?.any Edit.isFull

/-- Things that count towards the size of a task. -/
class Sized (α : Type) where
  /-- An estimate of the space that a value takes. -/
  byteSize : α → Nat

instance : Sized Revision where
  byteSize r := 32 + r.text.length * 2 + r.comment.utf8ByteSize + r.contributor.name.utf8ByteSize

instance : Sized Diff where
  byteSize d :=
    48 + d.patch.foldr (fun e sum => 12 + e.storedUnits * 2 + sum) 0 + d.comment.utf8ByteSize
      + d.contributor.name.utf8ByteSize

end EditHistory
