import EditHistory.Wire.Bits
import EditHistory.Text.Utf8

/-! Reading fields of bits from a byte string. A read that fails leaves the reader as it was. -/
namespace EditHistory

structure BitReader where
  bytes : Array UInt8
  /-- The number of bits read so far. -/
  position : Nat

namespace BitReader

def ofBytes (bytes : Bytes) : BitReader := ⟨bytes.toArray, 0⟩

def remaining (r : BitReader) : Nat := r.bytes.size * 8 - r.position

def isAligned (r : BitReader) : Bool := r.position % 8 == 0

/-- The bit at a position, most significant bit of a byte first. -/
def bitAt (bytes : Array UInt8) (position : Nat) : Bool :=
  (bytes.getD (position / 8) 0).toNat.testBit (7 - position % 8)

/-- The value of `width` bits from a position on, behind those of `acc`. -/
def valueFrom (bytes : Array UInt8) (position acc : Nat) : Nat → Nat
  | 0 => acc
  | n + 1 => valueFrom bytes (position + 1) (2 * acc + (bitAt bytes position).toNat) n

def readBits (r : BitReader) (width : Nat) : Except BitError (Nat × BitReader) :=
  if maxFieldBits < width then .error (.widthTooLarge width)
  else if r.remaining < width then .error (.endOfStream width r.remaining)
  else .ok (valueFrom r.bytes r.position 0 width, ⟨r.bytes, r.position + width⟩)

def readBit (r : BitReader) : Except BitError (Bool × BitReader) := do
  let (value, r) ← r.readBits 1
  return (value == 1, r)

/-- The whole bytes that start at a position, `count` of them. -/
def bytesFrom (bytes : Array UInt8) (position : Nat) : Nat → Bytes
  | 0 => []
  | n + 1 => (valueFrom bytes position 0 8).toUInt8 :: bytesFrom bytes (position + 8) n

/-- Reads whole bytes: at a byte boundary as they are, elsewhere bit by bit. -/
def readBytes (r : BitReader) (count : Nat) : Except BitError (Bytes × BitReader) :=
  if r.remaining < count * 8 then .error (.endOfStream (min (count * 8) 0xFFFFFFFF) r.remaining)
  else
    let read :=
      if r.isAligned then (r.bytes.extract (r.position / 8) (r.position / 8 + count)).toList
      else bytesFrom r.bytes r.position count
    .ok (read, ⟨r.bytes, r.position + count * 8⟩)

/-- Steps to the next byte boundary. -/
def skipToByte (r : BitReader) : BitReader := ⟨r.bytes, (r.position + 7) / 8 * 8⟩

/-- What is left is less than a byte and holds no set bit. -/
def atPadding (r : BitReader) : Bool :=
  r.remaining < 8 && valueFrom r.bytes r.position 0 r.remaining == 0

end BitReader
end EditHistory
