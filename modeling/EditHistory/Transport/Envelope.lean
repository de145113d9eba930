import EditHistory.Text.Blank
import EditHistory.Transport.Armor
import EditHistory.Transport.Compressor
import EditHistory.Wire.Error

/-! Envelopes around a body. In binary form the body stands as it is or packed behind a marker byte
that starts no body; in text form both are written in base64, the packed one behind an underscore,
which is no base64 symbol. -/
namespace EditHistory

/-- How patches become payloads. -/
structure Codec where
  charset : Charset
  /-- Whether bodies are packed where that makes them shorter. -/
  compress : Bool
  /-- How hard to pack: from 0, not at all, to 9. -/
  level : Nat
deriving DecidableEq, Repr

namespace Envelope

variable [Compressor] [Armor]

/-- The first byte of a packed payload. -/
def marker : UInt8 := 0x80

/-- The first character of a packed text payload. -/
def textMarker : Char := '_'

/-- The shortest body that is packed. -/
def minPacked : Nat := 32

/-- The packed body where it is wanted and shorter, the marker included. -/
def pack? (codec : Codec) (body : Bytes) : Option Bytes :=
  if !codec.compress || body.length < minPacked then none
  else
    let packed := Compressor.pack codec.level body
    if packed.length + 1 < body.length then some packed else none

def wrap (codec : Codec) (body : Bytes) : Bytes :=
  match pack? codec body with
  | some packed => marker :: packed
  | none => body

def unpack (packed : Bytes) : Except DecodeError Bytes := (Compressor.unpack packed).mapError .inflate

def unwrap : Bytes → Except DecodeError Bytes
  | [] => .error .empty
  | b :: rest => if b = marker then unpack rest else .ok (b :: rest)

def charsOf (bytes : Bytes) : List Char := bytes.map fun b => Char.ofNat b.toNat

def wrapText (codec : Codec) (body : Bytes) : List Char :=
  match pack? codec body with
  | some packed => textMarker :: charsOf (Armor.encode packed)
  | none => charsOf (Armor.encode body)

def decodeBase64 (cs : List Char) : Except DecodeError Bytes :=
  (Armor.decode (Utf8.ofChars cs)).mapError .base64

/-- White space around a text payload does not count. -/
def unwrapText (payload : List Char) : Except DecodeError Bytes :=
  match trim payload with
  | [] => .error .empty
  | c :: rest =>
    if c = textMarker then do unpack (← decodeBase64 rest) else decodeBase64 (c :: rest)

end Envelope
end EditHistory
