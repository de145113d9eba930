import EditHistory.Text.Utf8
import EditHistory.Transport.Huffman

/-! Unpacking a deflate stream: blocks of stored bytes or of literals and copies in Huffman codes.
Numbers stand least significant bit first. Bytes behind the last block are ignored. -/
namespace EditHistory
namespace Inflate

open Huffman (Fault Tree)

def Fault.message : Fault → String
  | .incomplete => "incomplete deflate stream"
  | .corrupt => "corrupt deflate stream"

/-- The bits of a byte, least significant first. -/
def bitsOfByte (b : UInt8) : List Bool := (List.range 8).map b.toNat.testBit

def bitsOf (bytes : Bytes) : List Bool := bytes.flatMap bitsOfByte

/-- Reads a number of `width` bits. -/
def readNumber (bits : List Bool) : Nat → Except Fault (Nat × List Bool)
  | 0 => .ok (0, bits)
  | n + 1 =>
    match bits with
    | [] => .error .incomplete
    | b :: rest => do
      let (value, rest) ← readNumber rest n
      return (b.toNat + 2 * value, rest)

/-- Reads whole bytes. -/
def readBytes (bits : List Bool) : Nat → Except Fault (Bytes × List Bool)
  | 0 => .ok ([], bits)
  | n + 1 => do
    let (b, rest) ← readNumber bits 8
    let (bs, rest) ← readBytes rest n
    return (b.toUInt8 :: bs, rest)

/-- The least value and the number of extra bits of the length symbols 257 to 285. -/
def lengthTable : List (Nat × Nat) :=
  [(3, 0), (4, 0), (5, 0), (6, 0), (7, 0), (8, 0), (9, 0), (10, 0), (11, 1), (13, 1), (15, 1),
    (17, 1), (19, 2), (23, 2), (27, 2), (31, 2), (35, 3), (43, 3), (51, 3), (59, 3), (67, 4),
    (83, 4), (99, 4), (115, 4), (131, 5), (163, 5), (195, 5), (227, 5), (258, 0)]

/-- The least value and the number of extra bits of the distance symbols 0 to 29. -/
def distanceTable : List (Nat × Nat) :=
  [(1, 0), (2, 0), (3, 0), (4, 0), (5, 1), (7, 1), (9, 2), (13, 2), (17, 3), (25, 3), (33, 4),
    (49, 4), (65, 5), (97, 5), (129, 6), (193, 6), (257, 7), (385, 7), (513, 8), (769, 8),
    (1025, 9), (1537, 9), (2049, 10), (3073, 10), (4097, 11), (6145, 11), (8193, 12), (12289, 12),
    (16385, 13), (24577, 13)]

/-- Reads the extra bits of a symbol from a table and adds them to its least value. -/
def readExtra (table : List (Nat × Nat)) (symbol : Nat) (bits : List Bool) :
    Except Fault (Nat × List Bool) :=
  match table[symbol]? with
  | none => .error .corrupt
  | some (least, width) => do
    let (extra, rest) ← readNumber bits width
    return (least + extra, rest)

/-- Appends bytes that stand `distance` back, one by one. -/
def copy (output : Array UInt8) (distance : Nat) : Nat → Array UInt8
  | 0 => output
  | n + 1 => copy (output.push (output.getD (output.size - distance) 0)) distance n

/-- The codes of a block: for literals and lengths, and for distances. -/
structure Codes where
  literals : Tree
  distances : Tree

/-- The symbol that ends a block. -/
def endOfBlock : Nat := 256

/-- Reads the literals and copies of a block. Each takes at least one bit, so `fuel` bits are
enough for as many of them. -/
def readSymbols (codes : Codes) : (fuel : Nat) → List Bool → Array UInt8 →
    Except Fault (Array UInt8 × List Bool)
  | 0, _, _ => .error .incomplete
  | fuel + 1, bits, output => do
    let (symbol, rest) ← codes.literals.read bits
    if symbol < endOfBlock then
      readSymbols codes fuel rest (output.push symbol.toUInt8)
    else if symbol = endOfBlock then return (output, rest)
    else
      let (length, rest) ← readExtra lengthTable (symbol - 257) rest
      let (symbol, rest) ← codes.distances.read rest
      let (distance, rest) ← readExtra distanceTable symbol rest
      if output.size < distance then throw .corrupt
      readSymbols codes fuel rest (copy output distance length)

def fixedLiteralLengths : List Nat :=
  List.replicate 144 8 ++ List.replicate 112 9 ++ List.replicate 24 7 ++ List.replicate 8 8

/-- The codes that need no description. -/
def fixedCodes : Codes := ⟨Huffman.root fixedLiteralLengths, Huffman.root (List.replicate 32 5)⟩

/-- The order in which the lengths of the code for code lengths are written. -/
def lengthOrder : List Nat := [16, 17, 18, 0, 8, 7, 9, 6, 10, 5, 11, 4, 12, 3, 13, 2, 14, 1, 15]

def readNumbers (width : Nat) (bits : List Bool) : Nat → Except Fault (List Nat × List Bool)
  | 0 => .ok ([], bits)
  | n + 1 => do
    let (value, rest) ← readNumber bits width
    let (values, rest) ← readNumbers width rest n
    return (value :: values, rest)

/-- The code for code lengths. With no word at all every bit reads as the length zero. -/
def lengthCode (lengths : List Nat) : Except Fault Tree :=
  if lengths.all (· == 0) then .ok (.node (.leaf 0) (.leaf 0))
  else if Huffman.isComplete lengths then .ok (Huffman.root lengths)
  else .error .corrupt

/-- The least count and the number of extra bits of the repeating symbols 16 to 18 of the code for
code lengths. -/
def repeatTable : List (Nat × Nat) := [(3, 2), (3, 3), (11, 7)]

/-- The symbol that repeats the last length. Those behind it repeat the length zero. -/
def repeatLast : Nat := 16

/-- Reads code lengths up to a count; `lengths` holds those read, the last one first. -/
def readLengths (code : Tree) (count : Nat) : (fuel : Nat) → List Bool → List Nat →
    Except Fault (List Nat × List Bool)
  | 0, _, _ => .error .incomplete
  | fuel + 1, bits, lengths =>
    if count ≤ lengths.length then .ok (lengths.reverse, bits)
    else do
      let (symbol, rest) ← code.read bits
      if symbol < repeatLast then readLengths code count fuel rest (symbol :: lengths)
      else
        let (times, rest) ← readExtra repeatTable (symbol - repeatLast) rest
        let length ←
          if symbol = repeatLast then
            match lengths with
            | [] => throw Fault.corrupt
            | last :: _ => pure last
          else pure 0
        if count < lengths.length + times then throw .corrupt
        readLengths code count fuel rest (List.replicate times length ++ lengths)

/-- A code for symbols: complete, or of words of one bit only. -/
def symbolCode (lengths : List Nat) : Except Fault Tree :=
  if Huffman.isComplete lengths || Huffman.isTrivial lengths then .ok (Huffman.root lengths)
  else .error .corrupt

/-- Reads the description of the codes of a block. -/
def readCodes (bits : List Bool) : Except Fault (Codes × List Bool) := do
  let (literals, bits) ← readNumber bits 5
  let (distances, bits) ← readNumber bits 5
  let (described, bits) ← readNumber bits 4
  let literals := literals + 257
  let distances := distances + 1
  if 286 < literals || 30 < distances then throw .corrupt
  let (given, bits) ← readNumbers 3 bits (described + 4)
  let code ← lengthCode ((List.range 19).map fun s => ((lengthOrder.zip given).lookup s).getD 0)
  let (lengths, bits) ← readLengths code (literals + distances) (bits.length + 1) bits []
  if lengths.getD endOfBlock 0 = 0 then throw .corrupt
  let literalCode ← symbolCode (lengths.take literals)
  let distanceCode ← symbolCode (lengths.drop literals)
  return (⟨literalCode, distanceCode⟩, bits)

/-- Reads a stored block: from the next byte on, its length, the complement of it, and the bytes. -/
def readStored (bits : List Bool) (output : Array UInt8) :
    Except Fault (Array UInt8 × List Bool) := do
  let (length, bits) ← readNumber (bits.drop (bits.length % 8)) 16
  let (complement, bits) ← readNumber bits 16
  if length + complement ≠ 0xFFFF then throw .corrupt
  let (bytes, bits) ← readBytes bits length
  return (output ++ bytes, bits)

/-- Reads blocks up to the last one. Each takes at least three bits. -/
def readBlocks : (fuel : Nat) → List Bool → Array UInt8 → Except Fault (Array UInt8)
  | 0, _, _ => .error .incomplete
  | fuel + 1, bits, output => do
    let (last, bits) ← readNumber bits 1
    let (type, bits) ← readNumber bits 2
    let (output, bits) ←
      match type with
      | 0 => readStored bits output
      | 1 => readSymbols fixedCodes (bits.length + 1) bits output
      | 2 => do
        let (codes, bits) ← readCodes bits
        readSymbols codes (bits.length + 1) bits output
      | _ => throw .corrupt
    if last = 1 then return output else readBlocks fuel bits output

end Inflate

/-- The bytes that a deflate stream holds. -/
def inflate (packed : Bytes) : Except Huffman.Fault Bytes := do
  let bits := Inflate.bitsOf packed
  let output ← Inflate.readBlocks (bits.length + 1) bits #[]
  return output.toList

end EditHistory
