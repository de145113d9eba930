import Std.Data.HashMap
import EditHistory.Transport.Inflate

/-! Packing bytes into a deflate stream of one block with the fixed codes, or of stored blocks at
level zero. Repetitions are found through the positions at which three bytes stood before. -/
namespace EditHistory
namespace Deflate

open Huffman (Tree)

/-- A byte, or a copy of what stands `distance` back. -/
inductive Token where
  | literal (byte : UInt8)
  | copy (length distance : Nat)
deriving DecidableEq, Repr

def numberBits (value : Nat) : Nat → List Bool
  | 0 => []
  | n + 1 => value.testBit 0 :: numberBits (value / 2) n

/-- The last entry of a table whose least value is not above `value`, and what it leaves over. -/
def slotOf (table : List (Nat × Nat)) (value : Nat) : Nat × Nat × Nat :=
  let slot := (table.takeWhile fun p => p.1 ≤ value).length - 1
  match table[slot]? with
  | some (least, width) => (slot, value - least, width)
  | none => (slot, 0, 0)

def wordOf (code : Tree) (symbol : Nat) : List Bool := (code.path? symbol).getD []

def Token.bits (codes : Inflate.Codes) : Token → List Bool
  | .literal b => wordOf codes.literals b.toNat
  | .copy length distance =>
    let (slot, extra, width) := slotOf Inflate.lengthTable length
    let (slot', extra', width') := slotOf Inflate.distanceTable distance
    wordOf codes.literals (257 + slot) ++ numberBits extra width
      ++ wordOf codes.distances slot' ++ numberBits extra' width'

/-- The number of bytes, at most `limit`, that stand both at `i` and at `j`. -/
def agreement (bytes : Array UInt8) (i j : Nat) : (limit : Nat) → Nat
  | 0 => 0
  | limit + 1 =>
    if h : i < bytes.size ∧ j < bytes.size then
      if bytes[i] == bytes[j] then agreement bytes (i + 1) (j + 1) limit + 1 else 0
    else 0

def maxCopy : Nat := 258
def maxDistance : Nat := 32768

/-- The number of earlier positions that are tried for a copy. -/
def maxTries : Nat := 64

/-- The longest copy for position `j` from the given earlier positions: its length and origin. -/
def longestCopy (bytes : Array UInt8) (j : Nat) (origins : List Nat) : Nat × Nat :=
  origins.foldl (fun best i =>
    let length := agreement bytes i j maxCopy
    if i < j && j - i ≤ maxDistance && best.1 < length then (length, i) else best) (0, 0)

def key (bytes : Array UInt8) (j : Nat) : Nat :=
  (bytes.getD j 0).toNat * 65536 + (bytes.getD (j + 1) 0).toNat * 256 + (bytes.getD (j + 2) 0).toNat

abbrev Seen := Std.HashMap Nat (List Nat)

/-- Enters `count` positions from `j` on. -/
def note (bytes : Array UInt8) (seen : Seen) (j : Nat) : (count : Nat) → Seen
  | 0 => seen
  | n + 1 =>
    let k := key bytes j
    note bytes (seen.insert k (j :: (seen.getD k []).take (maxTries - 1))) (j + 1) n

/-- The tokens for the bytes from `j` on. -/
def tokensFrom (bytes : Array UInt8) (seen : Seen) (j : Nat) : List Token :=
  if h : j < bytes.size then
    match longestCopy bytes j (seen.getD (key bytes j) []) with
    | (length, i) =>
      if 3 ≤ length then .copy length (j - i) :: tokensFrom bytes (note bytes seen j length) (j + length)
      else .literal bytes[j] :: tokensFrom bytes (note bytes seen j 1) (j + 1)
  else []
termination_by bytes.size - j

def tokens (bytes : Bytes) : List Token := tokensFrom bytes.toArray ∅ 0

/-- Bits as bytes, the last one filled up with zeros. -/
def packBits : List Bool → Bytes
  | [] => []
  | b₀ :: b₁ :: b₂ :: b₃ :: b₄ :: b₅ :: b₆ :: b₇ :: rest =>
    byteOf [b₀, b₁, b₂, b₃, b₄, b₅, b₆, b₇] :: packBits rest
  | last => [byteOf last]
where
  byteOf (bits : List Bool) : UInt8 := (bits.foldr (fun (b : Bool) n => b.toNat + 2 * n) 0).toUInt8

/-- One block with the fixed codes. -/
def fixedBlock (bytes : Bytes) : Bytes :=
  packBits ([true, true, false] ++ (tokens bytes).flatMap (Token.bits Inflate.fixedCodes)
    ++ wordOf Inflate.fixedCodes.literals Inflate.endOfBlock)

/-- The most bytes that a stored block holds. -/
def maxStored : Nat := 0xFFFF

def storedBlock (last : Bool) (bytes : Bytes) : Bytes :=
  let n := bytes.length
  [last.toNat.toUInt8, (n % 256).toUInt8, (n / 256).toUInt8, (255 - n % 256).toUInt8,
    (255 - n / 256).toUInt8] ++ bytes

def storedBlocks (bytes : Bytes) : Bytes :=
  if bytes.length ≤ maxStored then storedBlock true bytes
  else storedBlock false (bytes.take maxStored) ++ storedBlocks (bytes.drop maxStored)
termination_by bytes.length
decreasing_by
  simp only [List.length_drop, maxStored] at *
  omega

end Deflate

/-- A deflate stream that holds the bytes. -/
def deflate (level : Nat) (bytes : Bytes) : Bytes :=
  if level = 0 then Deflate.storedBlocks bytes else Deflate.fixedBlock bytes

end EditHistory
