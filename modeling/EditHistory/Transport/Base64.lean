import EditHistory.Text.Utf8

/-! Base64 in the standard alphabet. Padding is required and the unused bits of the last symbol
have to be zero, so every byte string has exactly one written form. -/
namespace EditHistory
namespace Base64

inductive Fault where
  | invalidSymbol (byte : UInt8) (offset : Nat)
  | invalidLength (length : Nat)
  | invalidPadding
  | invalidLastSymbol (byte : UInt8) (offset : Nat)
deriving DecidableEq, Repr

def Fault.message : Fault → String
  | .invalidSymbol byte offset => s!"Invalid symbol {byte.toNat}, offset {offset}."
  | .invalidLength length => s!"Invalid input length: {length}"
  | .invalidPadding => "Invalid padding"
  | .invalidLastSymbol byte offset => s!"Invalid last symbol {byte.toNat}, offset {offset}."

/-- The symbol of a six-bit value. -/
def symbol (value : Nat) : UInt8 :=
  if value < 26 then (65 + value).toUInt8
  else if value < 52 then (97 + (value - 26)).toUInt8
  else if value < 62 then (48 + (value - 52)).toUInt8
  else if value = 62 then 43 else 47

/-- The six-bit value of a symbol. -/
def value? (b : UInt8) : Option Nat :=
  if 65 ≤ b && b ≤ 90 then some (b.toNat - 65)
  else if 97 ≤ b && b ≤ 122 then some (b.toNat - 97 + 26)
  else if 48 ≤ b && b ≤ 57 then some (b.toNat - 48 + 52)
  else if b = 43 then some 62
  else if b = 47 then some 63
  else none

theorem value?_symbol {v : Nat} (h : v < 64) : value? (symbol v) = some v := by
  have : ∀ v : Fin 64, value? (symbol v) = some v.val := by decide
  exact this ⟨v, h⟩

/-- The padding character. -/
def pad : UInt8 := 61

/-- Three bytes become four symbols; one or two bytes at the end are padded. -/
def encode : Bytes → Bytes
  | [] => []
  | [a] => [symbol (a.toNat / 4), symbol (a.toNat % 4 * 16), pad, pad]
  | [a, b] =>
    [symbol (a.toNat / 4), symbol (a.toNat % 4 * 16 + b.toNat / 16), symbol (b.toNat % 16 * 4), pad]
  | a :: b :: c :: rest =>
    symbol (a.toNat / 4) :: symbol (a.toNat % 4 * 16 + b.toNat / 16)
      :: symbol (b.toNat % 16 * 4 + c.toNat / 64) :: symbol (c.toNat % 64) :: encode rest

/-- The value of the symbol at an offset. -/
def readSymbol (b : UInt8) (offset : Nat) : Except Fault Nat :=
  match value? b with
  | some v => .ok v
  | none => .error (.invalidSymbol b offset)

/-- The values and the number of padding characters of the last symbols; `position` counts from
the start of their group of four. -/
def readLast (offset position : Nat) : Bytes → Except Fault (List Nat × Nat)
  | [] => .ok ([], 0)
  | b :: rest =>
    if b = pad then
      if 2 ≤ position && rest.all (· == pad) then .ok ([], rest.length + 1)
      else .error (.invalidSymbol pad (offset + position))
    else do
      let v ← readSymbol b (offset + position)
      let (vs, pads) ← readLast offset (position + 1) rest
      return (v :: vs, pads)

/-- The bytes of the last one to four characters. -/
def decodeLast (offset : Nat) (last : Bytes) : Except Fault Bytes := do
  let (vs, pads) ← readLast offset 0 last
  if vs.length < 2 then throw (.invalidLength (offset + vs.length))
  if (vs.length + pads) % 4 ≠ 0 then throw .invalidPadding
  let lastSymbol : Fault :=
    .invalidLastSymbol (last.getD (vs.length - 1) 0) (offset + (vs.length - 1))
  match vs with
  | [v, w] =>
    if w % 16 ≠ 0 then throw lastSymbol
    return [(v * 4 + w / 16).toUInt8]
  | [v, w, x] =>
    if x % 4 ≠ 0 then throw lastSymbol
    return [(v * 4 + w / 16).toUInt8, (w % 16 * 16 + x / 4).toUInt8]
  | [v, w, x, y] =>
    return [(v * 4 + w / 16).toUInt8, (w % 16 * 16 + x / 4).toUInt8, (x % 4 * 64 + y).toUInt8]
  | _ => return []

/-- Reads groups of four symbols from an offset on; the last group may be shorter or padded. -/
def decodeFrom (offset : Nat) : Bytes → Except Fault Bytes
  | [] => .ok []
  | a :: b :: c :: d :: e :: rest => do
    let v ← readSymbol a offset
    let w ← readSymbol b (offset + 1)
    let x ← readSymbol c (offset + 2)
    let y ← readSymbol d (offset + 3)
    let tail ← decodeFrom (offset + 4) (e :: rest)
    return (v * 4 + w / 16).toUInt8 :: (w % 16 * 16 + x / 4).toUInt8 :: (x % 4 * 64 + y).toUInt8 :: tail
  | last => decodeLast offset last

/-- A single byte behind the last group is looked at first. -/
def decode (bytes : Bytes) : Except Fault Bytes :=
  match bytes.getLast? with
  | none => .ok []
  | some b =>
    if bytes.length % 4 = 1 && b ≠ pad && (value? b).isNone then
      .error (.invalidSymbol b (bytes.length - 1))
    else decodeFrom 0 bytes

end Base64
end EditHistory
