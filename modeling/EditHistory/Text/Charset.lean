import EditHistory.Text.Utf8

/-! The charsets that texts are stored in. Each is a bijection between the texts it can hold and
its well-formed byte strings. -/
namespace EditHistory

inductive Charset where
  | utf8
  | utf16le
  | utf16be
deriving DecidableEq, Repr

namespace Charset

def name : Charset → String
  | .utf8 => "UTF-8"
  | .utf16le => "UTF-16LE"
  | .utf16be => "UTF-16BE"

inductive Fault where
  | illFormed (fault : Utf8.Fault)
  | oddLength (length : Nat) (charset : Charset)
deriving DecidableEq, Repr

def Fault.message : Fault → String
  | .illFormed fault => s!"invalid UTF-8 text: {fault.message}"
  | .oddLength length charset => s!"odd byte length {length} for {charset.name}"

def lowByte (u : UInt16) : UInt8 := u.toUInt8
def highByte (u : UInt16) : UInt8 := (u >>> 8).toUInt8
def ofHighLow (high low : UInt8) : UInt16 := (high.toUInt16 <<< 8) ||| low.toUInt16

/-- Reads bytes two by two; a single byte at the end is dropped. -/
def pairUp (join : UInt8 → UInt8 → UInt16) : Bytes → Text
  | a :: b :: rest => join a b :: pairUp join rest
  | _ => []

def encode : Charset → Text → Option Bytes
  | .utf8, t => Utf8.encode t
  | .utf16le, t => some (t.flatMap fun u => [lowByte u, highByte u])
  | .utf16be, t => some (t.flatMap fun u => [highByte u, lowByte u])

def decode (charset : Charset) (bytes : Bytes) : Except Fault Text :=
  match charset with
  | .utf8 => (Utf8.decode bytes).mapError .illFormed
  | .utf16le =>
    if bytes.length % 2 = 0 then .ok (pairUp (fun a b => ofHighLow b a) bytes)
    else .error (.oddLength bytes.length .utf16le)
  | .utf16be =>
    if bytes.length % 2 = 0 then .ok (pairUp ofHighLow bytes)
    else .error (.oddLength bytes.length .utf16be)

/-- A charset name in lower case, with hyphens for underscores. -/
def normalizeName (s : String) : String :=
  String.ofList (s.toList.map fun c => if c.toLower = '_' then '-' else c.toLower)

/-- The charset of a name, or the normalized name if it names none. -/
def ofName (s : String) : Except String Charset :=
  let n := normalizeName s
  if n = "utf-8" || n = "utf8" then .ok .utf8
  else if n = "utf-16le" || n = "utf16le" then .ok .utf16le
  else if n = "utf-16be" || n = "utf16be" || n = "utf-16" then .ok .utf16be
  else .error n

def unsupportedMessage (name : String) : String := s!"unsupported charset '{name}'"

end Charset
end EditHistory
