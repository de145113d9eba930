/-! Texts as lists of 16-bit code units, as offsets in a diff count them. A text may hold
unpaired surrogates: `symbols` reads it as scalar values and lone surrogates, and every
operation that has to tell the two apart is defined through that reading. -/
namespace EditHistory

abbrev Text := List UInt16

namespace Text

def isHigh (u : UInt16) : Bool := 0xD800 ≤ u && u ≤ 0xDBFF
def isLow (u : UInt16) : Bool := 0xDC00 ≤ u && u ≤ 0xDFFF

/-- The boundary in front of unit `i` separates a high surrogate from the low one that completes it. -/
def splitsPair (t : Text) : Nat → Bool
  | 0 => false
  | i + 1 =>
    match t[i]?, t[i + 1]? with
    | some h, some l => isHigh h && isLow l
    | _, _ => false

@[simp] theorem splitsPair_zero (t : Text) : t.splitsPair 0 = false := rfl

theorem splitsPair_of_length_le {t : Text} {i : Nat} (h : t.length ≤ i) :
    t.splitsPair i = false := by
  cases i with
  | zero => rfl
  | succ i => simp only [splitsPair, List.getElem?_eq_none h]; split <;> simp_all

/-- The scalar value that a high and a low surrogate stand for. -/
def pairValue (h l : UInt16) : Nat :=
  0x10000 + (h.toNat - 0xD800) * 0x400 + (l.toNat - 0xDC00)

/-- What a text reads as, item by item. -/
inductive Symbol where
  | scalar (value : Nat)
  | lone (surrogate : UInt16)
deriving DecidableEq, Repr

def Symbol.isLone : Symbol → Bool
  | .scalar _ => false
  | .lone _ => true

/-- A surrogate pair is one scalar value; a surrogate outside a pair stays alone. -/
def symbols : Text → List Symbol
  | [] => []
  | [u] => if isHigh u || isLow u then [.lone u] else [.scalar u.toNat]
  | u :: v :: rest =>
    if isHigh u then
      if isLow v then .scalar (pairValue u v) :: symbols rest
      else .lone u :: symbols (v :: rest)
    else if isLow u then .lone u :: symbols (v :: rest)
    else .scalar u.toNat :: symbols (v :: rest)

/-- The units of a scalar value: one below 0x10000, a surrogate pair from there on. -/
def ofScalar (value : Nat) : Text :=
  if value < 0x10000 then [value.toUInt16]
  else [(0xD800 + (value - 0x10000) / 0x400).toUInt16, (0xDC00 + (value - 0x10000) % 0x400).toUInt16]

def hasUnpaired (t : Text) : Bool := t.symbols.any Symbol.isLone

/-- The replacement character U+FFFD. -/
def replacement : Nat := 0xFFFD

def Symbol.sanitized : Symbol → Nat
  | .scalar value => value
  | .lone _ => replacement

/-- Every unpaired surrogate becomes U+FFFD. -/
def replaceUnpaired (t : Text) : Text := t.symbols.flatMap (fun s => ofScalar s.sanitized)

def ofString (s : String) : Text := s.toList.flatMap (fun c => ofScalar c.toNat)

/-- The text as characters, with U+FFFD for every unpaired surrogate. -/
def toCharsLossy (t : Text) : List Char := t.symbols.map fun s => Char.ofNat s.sanitized

def toStringLossy (t : Text) : String := String.ofList t.toCharsLossy

/-- Carriage returns, with the line feed that may follow them, become line feeds. -/
def foldLineEndings : Text → Text
  | [] => []
  | [u] => if u = 13 then [10] else [u]
  | u :: v :: rest =>
    if u = 13 then
      if v = 10 then 10 :: foldLineEndings rest else 10 :: foldLineEndings (v :: rest)
    else u :: foldLineEndings (v :: rest)

/-- The units from `start` on, `length` of them. -/
def segment (t : Text) (start length : Nat) : Text := (t.drop start).take length

end Text
end EditHistory
