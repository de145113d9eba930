import EditHistory.Wire.Action
import EditHistory.Wire.BitReader
import EditHistory.Wire.BitWriter
import EditHistory.Wire.Error

/-! The header of a body: after the action code zero, the widths that the fields of all its edits
share. Each is wide enough for the largest value of its field. -/
namespace EditHistory

structure Widths where
  start : Nat
  length : Nat
  block : Nat
  text : Nat
deriving DecidableEq, Repr

/-- The number of significant bits of a value. -/
def bitCount (value : Nat) : Nat := if value = 0 then 0 else Nat.log2 value + 1

/-- The largest value of a field. -/
def maxFieldValue : Nat := 0x7FFFFFFF

namespace Widths

def zero : Widths := ⟨0, 0, 0, 0⟩

def get (w : Widths) : Field → Nat
  | .start => w.start
  | .length => w.length
  | .block => w.block
  | .textLength => w.text

/-- Makes a field at least `bits` wide. -/
def widen (w : Widths) (bits : Nat) : Field → Widths
  | .start => { w with start := max w.start bits }
  | .length => { w with length := max w.length bits }
  | .block => { w with block := max w.block bits }
  | .textLength => { w with text := max w.text bits }

/-- Makes a field wide enough for a value. -/
def observe (w : Widths) (field : Field) (value : Nat) : Except EncodeError Widths :=
  if maxFieldValue < value then .error (.fieldOverflow field value)
  else .ok (w.widen (bitCount value) field)

def fits (w : Widths) (field : Field) (value : Nat) : Bool := bitCount value ≤ w.get field

/-- The bits that a width takes in the header. -/
def widthBits : Nat := 5

def write (w : Widths) (out : BitWriter) : Except BitError BitWriter := do
  let out ← out.writeBits Action.header.code Action.bits
  let out ← out.writeBits w.start widthBits
  let out ← out.writeBits w.length widthBits
  let out ← out.writeBits w.block widthBits
  let out ← out.writeBits w.text widthBits
  return out.pushBit false

def summary (w : Widths) : String := s!"S={w.start} E={w.length} B={w.block} L={w.text}"

end Widths

/-- Reading with a decode error as the outcome of a failed read. -/
abbrev Reading := StateT BitReader (Except DecodeError)

namespace Reading

/-- A read that fails because `context` is cut off. -/
def within {α : Type} (context : Context) (read : BitReader → Except BitError (α × BitReader)) :
    Reading α :=
  fun r => (read r).mapError (.truncated context)

def skipToByte : Reading Unit := fun r => .ok ((), r.skipToByte)

end Reading

/-- Reads a header. -/
def Widths.read : Reading Widths := do
  let marker ← Reading.within .header (·.readBits Action.bits)
  if marker ≠ Action.header.code then throw (.invalidMarker marker)
  let start ← Reading.within .header (·.readBits widthBits)
  let length ← Reading.within .header (·.readBits widthBits)
  let block ← Reading.within .header (·.readBits widthBits)
  let text ← Reading.within .header (·.readBits widthBits)
  let _ ← Reading.within .header (·.readBit)
  return ⟨start, length, block, text⟩

end EditHistory
