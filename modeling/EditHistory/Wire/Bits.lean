/-! Fields of bits, most significant bit first. -/
namespace EditHistory

/-- The widest field that is written or read in one step. -/
def maxFieldBits : Nat := 32

inductive BitError where
  | endOfStream (requested available : Nat)
  | widthTooLarge (width : Nat)
  | valueOverflow (value width : Nat)
deriving DecidableEq, Repr

def BitError.message : BitError → String
  | .endOfStream requested available =>
    s!"end of bit stream: {requested} bits requested, {available} available"
  | .widthTooLarge width => s!"field width {width} exceeds {maxFieldBits} bits"
  | .valueOverflow value width => s!"value {value} does not fit in {width} bits"

namespace Bits

/-- The low `width` bits of a value. -/
def ofNat (value : Nat) : Nat → List Bool
  | 0 => []
  | n + 1 => value.testBit n :: ofNat value n

@[simp] theorem length_ofNat (value width : Nat) : (ofNat value width).length = width := by
  induction width <;> simp_all [ofNat]

/-- The value that bits stand for behind those of `acc`. -/
def toNatFrom (acc : Nat) : List Bool → Nat
  | [] => acc
  | b :: rest => toNatFrom (2 * acc + b.toNat) rest

def toNat (bits : List Bool) : Nat := toNatFrom 0 bits

end Bits
end EditHistory
