import EditHistory.Wire.Bits
import EditHistory.Text.Utf8

/-! Appending fields of bits to a byte string. The writer keeps whole bytes and, as a number, the
fewer than eight bits of the byte it has begun. -/
namespace EditHistory

structure BitWriter where
  bytes : Array UInt8
  pending : Nat
  used : Nat
  used_lt : used < 8
  pending_lt : pending < 1 <<< used

namespace BitWriter

def empty : BitWriter := ⟨#[], 0, 0, by decide, by decide⟩

theorem pushed_lt {pending used : Nat} (h : pending < 1 <<< used) (b : Bool) :
    2 * pending + b.toNat < 1 <<< (used + 1) := by
  simp only [Nat.shiftLeft_succ] at *
  cases b <;> simp only [Bool.toNat_false, Bool.toNat_true] <;> omega

def pushBit (w : BitWriter) (b : Bool) : BitWriter :=
  if h : w.used + 1 < 8 then
    ⟨w.bytes, 2 * w.pending + b.toNat, w.used + 1, h, pushed_lt w.pending_lt b⟩
  else ⟨w.bytes.push (2 * w.pending + b.toNat).toUInt8, 0, 0, by decide, by decide⟩

def pushBits (w : BitWriter) (bits : List Bool) : BitWriter := bits.foldl pushBit w

/-- Writes a value as a field of `width` bits. -/
def writeBits (w : BitWriter) (value width : Nat) : Except BitError BitWriter :=
  if maxFieldBits < width then .error (.widthTooLarge width)
  else if 1 <<< width ≤ value then .error (.valueOverflow value width)
  else .ok (w.pushBits (Bits.ofNat value width))

def isAligned (w : BitWriter) : Bool := w.used == 0

/-- Writes whole bytes: at a byte boundary as they are, elsewhere bit by bit. -/
def writeBytes (w : BitWriter) (bytes : Bytes) : BitWriter :=
  if w.isAligned then { w with bytes := w.bytes ++ bytes }
  else bytes.foldl (fun w b => w.pushBits (Bits.ofNat b.toNat 8)) w

/-- Fills the begun byte up with zeros. -/
def padToByte (w : BitWriter) : BitWriter :=
  if w.isAligned then w
  else ⟨w.bytes.push (w.pending <<< (8 - w.used)).toUInt8, 0, 0, by decide, by decide⟩

def bitLength (w : BitWriter) : Nat := w.bytes.size * 8 + w.used

/-- The bytes written, the last one filled up with zeros. -/
def finish (w : BitWriter) : Bytes := w.padToByte.bytes.toList

end BitWriter
end EditHistory
