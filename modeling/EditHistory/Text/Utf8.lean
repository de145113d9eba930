import EditHistory.Text.Basic

/-! UTF-8 over code unit texts. The decoder accepts well-formed sequences only and says where the
first ill-formed one stands and how much of it was acceptable. -/
namespace EditHistory

abbrev Bytes := List UInt8

namespace Utf8

/-- Where decoding stops: `index` is the length of the well-formed part in front of the fault. -/
inductive Fault where
  /-- The `length` bytes at `index` start no character. -/
  | invalid (length index : Nat)
  /-- The bytes end inside a character. -/
  | incomplete (index : Nat)
deriving DecidableEq, Repr

def Fault.message : Fault → String
  | .invalid length index => s!"invalid utf-8 sequence of {length} bytes from index {index}"
  | .incomplete index => s!"incomplete utf-8 byte sequence from index {index}"

/-- The bytes of a scalar value, one to four of them. -/
def ofScalar (v : Nat) : Bytes :=
  if v < 0x80 then [v.toUInt8]
  else if v < 0x800 then [(0xC0 + v / 0x40).toUInt8, (0x80 + v % 0x40).toUInt8]
  else if v < 0x10000 then
    [(0xE0 + v / 0x1000).toUInt8, (0x80 + v / 0x40 % 0x40).toUInt8, (0x80 + v % 0x40).toUInt8]
  else
    [(0xF0 + v / 0x40000).toUInt8, (0x80 + v / 0x1000 % 0x40).toUInt8,
      (0x80 + v / 0x40 % 0x40).toUInt8, (0x80 + v % 0x40).toUInt8]

/-- The bytes of a text, none if it holds an unpaired surrogate. -/
def encode (t : Text) : Option Bytes :=
  if t.hasUnpaired then none else some (t.symbols.flatMap (fun s => ofScalar s.sanitized))

/-- The bytes of a text after its unpaired surrogates were replaced. -/
def encodeLossy (t : Text) : Bytes := t.symbols.flatMap (fun s => ofScalar s.sanitized)

def ofChars (cs : List Char) : Bytes := cs.flatMap (fun c => ofScalar c.toNat)

def ofString (s : String) : Bytes := ofChars s.toList

def isTail (b : UInt8) : Bool := 0x80 ≤ b && b ≤ 0xBF

/-- The byte after a lead of three bytes: no overlong form, no surrogate. -/
def isSecondOfThree (a b : UInt8) : Bool :=
  (if a = 0xE0 then 0xA0 else 0x80) ≤ b && b ≤ (if a = 0xED then 0x9F else 0xBF)

/-- The byte after a lead of four bytes: no overlong form, nothing above U+10FFFF. -/
def isSecondOfFour (a b : UInt8) : Bool :=
  (if a = 0xF0 then 0x90 else 0x80) ≤ b && b ≤ (if a = 0xF4 then 0x8F else 0xBF)

def twoValue (a b : UInt8) : Nat := (a.toNat - 0xC0) * 0x40 + (b.toNat - 0x80)

def threeValue (a b c : UInt8) : Nat :=
  (a.toNat - 0xE0) * 0x1000 + (b.toNat - 0x80) * 0x40 + (c.toNat - 0x80)

def fourValue (a b c d : UInt8) : Nat :=
  (a.toNat - 0xF0) * 0x40000 + (b.toNat - 0x80) * 0x1000 + (c.toNat - 0x80) * 0x40 + (d.toNat - 0x80)

/-- Decodes from the byte at `index` on. -/
def decodeFrom (index : Nat) : Bytes → Except Fault Text
  | [] => .ok []
  | a :: rest =>
    if a < 0x80 then (Text.ofScalar a.toNat ++ ·) <$> decodeFrom (index + 1) rest
    else if 0xC2 ≤ a && a ≤ 0xDF then
      match rest with
      | [] => .error (.incomplete index)
      | b :: rest =>
        if !isTail b then .error (.invalid 1 index)
        else (Text.ofScalar (twoValue a b) ++ ·) <$> decodeFrom (index + 2) rest
    else if 0xE0 ≤ a && a ≤ 0xEF then
      match rest with
      | [] => .error (.incomplete index)
      | b :: rest =>
        if !isSecondOfThree a b then .error (.invalid 1 index)
        else match rest with
          | [] => .error (.incomplete index)
          | c :: rest =>
            if !isTail c then .error (.invalid 2 index)
            else (Text.ofScalar (threeValue a b c) ++ ·) <$> decodeFrom (index + 3) rest
    else if 0xF0 ≤ a && a ≤ 0xF4 then
      match rest with
      | [] => .error (.incomplete index)
      | b :: rest =>
        if !isSecondOfFour a b then .error (.invalid 1 index)
        else match rest with
          | [] => .error (.incomplete index)
          | c :: rest =>
            if !isTail c then .error (.invalid 2 index)
            else match rest with
              | [] => .error (.incomplete index)
              | d :: rest =>
                if !isTail d then .error (.invalid 3 index)
                else (Text.ofScalar (fourValue a b c d) ++ ·) <$> decodeFrom (index + 4) rest
    else .error (.invalid 1 index)

def decode (bytes : Bytes) : Except Fault Text := decodeFrom 0 bytes

def decodeChars (bytes : Bytes) : Except Fault (List Char) := Text.toCharsLossy <$> decode bytes

end Utf8
end EditHistory
