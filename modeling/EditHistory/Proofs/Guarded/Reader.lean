import EditHistory.Proofs.Guarded.Basic
import EditHistory.Proofs.Wire.Reading

/-! The reader of bits with guards. It goes byte by byte where the plain one goes bit by bit, and every
position that it moves to has to be in its bytes or at their end. -/
namespace EditHistory

/-- The reader stands in its bytes or at their end, and a word holds the number of their bits. -/
structure BitReader.Bounded (r : BitReader) : Prop where
  inside : r.Inside
  size_lt : r.bytes.size < 1 <<< 61

namespace Guarded

variable {ε : Type} {r : BitReader}

def remaining (r : BitReader) : Guarded ε Nat := do
  sub (← word (r.bytes.size * 8)) r.position

def moveTo (r : BitReader) (position : Nat) : Guarded ε BitReader := do
  ensure (position ≤ r.bytes.size * 8)
  return ⟨r.bytes, ← word position⟩

/-- Adds what the byte at the position has of the bits that are `left`, for so many turns at most. -/
def readChunks : Nat → BitReader → Nat → Nat → Guarded BitError (Nat × BitReader)
  | 0, _, _, _ => fault
  | turns + 1, r, value, left =>
    if left = 0 then return (value, r)
    else do
      let byte ← item r.bytes (r.position / 8)
      let free ← sub 8 (r.position % 8)
      let taken := min free left
      let bits ← lowBits (byte.toNat >>> (← sub free taken)) taken
      let value ← word (value <<< taken ||| bits)
      let next ← moveTo r (r.position + taken)
      readChunks turns next value (← sub left taken)

def readBits (r : BitReader) (width : Nat) : Guarded BitError (Nat × BitReader) := do
  if maxFieldBits < width then throw (.widthTooLarge width)
  let available ← remaining r
  if available < width then throw (.endOfStream width available)
  let (value, next) ← readChunks (width + 1) r 0 width
  ensure (value < 1 <<< maxFieldBits)
  return (value, next)

def readBit (r : BitReader) : Guarded BitError (Bool × BitReader) := do
  let (value, r) ← readBits r 1
  return (value == 1, r)

def readBytewise : Nat → BitReader → Guarded BitError (Bytes × BitReader)
  | 0, r => return ([], r)
  | n + 1, r => do
    let (value, r) ← readBits r 8
    let (rest, r) ← readBytewise n r
    return (value.toUInt8 :: rest, r)

/-- The number of bits that are asked for stops at the largest word. -/
def readBytes (r : BitReader) (count : Nat) : Guarded BitError (Bytes × BitReader) := do
  let available ← remaining r
  let asked := min (count * 8) (Decimal.wordLimit - 1)
  if available < asked then throw (.endOfStream (min asked 0xFFFFFFFF) available)
  if r.isAligned then
    let next ← moveTo r (r.position + (← word (count * 8)))
    let bytes ← slice r.bytes (r.position / 8) (r.position / 8 + count)
    return (bytes.toList, next)
  else readBytewise count r

def skipToByte (r : BitReader) : Guarded ε BitReader := moveTo r ((r.position + 7) / 8 * 8)

def atPadding (r : BitReader) : Guarded ε Bool := do
  let left ← remaining r
  if left = 0 then return true
  if 8 ≤ left then return false
  let last ← item r.bytes (← sub r.bytes.size 1)
  return (← lowBits last.toNat left) == 0

/-! ## No faults -/

theorem word_of_le (h : r.Bounded) {position : Nat} (hposition : position ≤ r.bytes.size * 8) :
    (word position : Guarded ε Nat) = pure position := by
  refine word_eq (Nat.lt_of_le_of_lt hposition ?_)
  have hsize := h.size_lt
  rw [Decimal.wordLimit]
  omega

theorem remaining_eq (h : r.Bounded) : (remaining r : Guarded ε Nat) = pure r.remaining := by
  have hinside : r.position ≤ r.bytes.size * 8 := h.inside
  rw [remaining, word_of_le h (Nat.le_refl _), pure_bind, sub_eq hinside]
  rfl

theorem moveTo_eq (h : r.Bounded) {position : Nat} (hposition : position ≤ r.bytes.size * 8) :
    (moveTo r position : Guarded ε BitReader) = pure ⟨r.bytes, position⟩ := by
  rw [moveTo, ensure_eq hposition, pure_bind, word_of_le h hposition, pure_bind]

theorem bounded_of_le (h : r.Bounded) {position : Nat} (hposition : position ≤ r.bytes.size * 8) :
    (⟨r.bytes, position⟩ : BitReader).Bounded := ⟨hposition, h.size_lt⟩

theorem valueFrom_add (bytes : Array UInt8) (position acc m n : Nat) :
    BitReader.valueFrom bytes position acc (m + n) =
      BitReader.valueFrom bytes (position + m) (BitReader.valueFrom bytes position acc m) n := by
  induction m generalizing position acc with
  | zero => simp [BitReader.valueFrom]
  | succ m ih =>
    have hsum : m + 1 + n = (m + n) + 1 := by omega
    rw [hsum, BitReader.valueFrom, ih, BitReader.valueFrom]
    congr 1
    omega

/-- The bits of one byte. -/
theorem valueFrom_byte {bytes : Array UInt8} {i : Nat} {byte : UInt8} (hbyte : bytes[i]? = some byte)
    (offset acc : Nat) {n : Nat} (hn : offset + n ≤ 8) :
    BitReader.valueFrom bytes (i * 8 + offset) acc n =
      Bits.toNatFrom acc (Bits.ofNat (byte.toNat >>> (8 - offset - n)) n) := by
  induction n generalizing offset acc with
  | zero => rfl
  | succ n ih =>
    have hdiv : (i * 8 + offset) / 8 = i := by omega
    have hmod : (i * 8 + offset) % 8 = offset := by omega
    have hget : bytes.getD i 0 = byte := by
      simp [Array.getD_eq_getD_getElem?, hbyte]
    have hshift : 8 - offset - (n + 1) = 8 - (offset + 1) - n := by omega
    have hbit : BitReader.bitAt bytes (i * 8 + offset) =
        (byte.toNat >>> (8 - (offset + 1) - n)).testBit n := by
      have hplace : 8 - (offset + 1) - n + n = 7 - offset := by omega
      rw [BitReader.bitAt, hdiv, hmod, hget, Nat.testBit_shiftRight, hplace]
    rw [BitReader.valueFrom, Nat.add_assoc, ih (offset + 1) _ (by omega), hbit, hshift]
    rfl

/-- The bits that are taken from one byte join the value as they would one by one. -/
theorem chunk_eq {bytes : Array UInt8} {position : Nat} {byte : UInt8}
    (hbyte : bytes[position / 8]? = some byte) (value : Nat) {taken : Nat}
    (htaken : position % 8 + taken ≤ 8) :
    value <<< taken ||| byte.toNat >>> (8 - position % 8 - taken) % 1 <<< taken =
      BitReader.valueFrom bytes position value taken := by
  have hchunk := valueFrom_byte hbyte (position % 8) value htaken
  have hposition : position / 8 * 8 + position % 8 = position := by omega
  have hlt : byte.toNat >>> (8 - position % 8 - taken) % 1 <<< taken < 2 ^ taken := by
    rw [Nat.one_shiftLeft]
    exact Nat.mod_lt _ (Nat.two_pow_pos taken)
  rw [hposition, Bits.toNatFrom_ofNat] at hchunk
  rw [hchunk, Nat.shiftLeft_add_eq_or_of_lt hlt]

/-- The invariant is that with the bits that are left the value stays within 32 bits. -/
theorem readChunks_eq (h : r.Bounded) {turns value left : Nat} (hturns : left < turns)
    (hleft : r.position + left ≤ r.bytes.size * 8) (hvalue : (value + 1) <<< left ≤ 1 <<< 32) :
    readChunks turns r value left =
      pure (BitReader.valueFrom r.bytes r.position value left, ⟨r.bytes, r.position + left⟩) := by
  induction turns generalizing r value left with
  | zero => omega
  | succ turns ih =>
    by_cases hzero : left = 0
    · subst hzero
      rw [readChunks, if_pos rfl]
      rfl
    · -- one turn takes what is left of the byte at the position, or all that is asked for
      have hplace : r.position / 8 < r.bytes.size := by omega
      have hbyte := Array.getElem?_eq_getElem hplace
      have hfree : r.position % 8 ≤ 8 := by omega
      obtain ⟨taken, htaken⟩ : ∃ taken, taken = min (8 - r.position % 8) left := ⟨_, rfl⟩
      have hcut : taken ≤ 8 - r.position % 8 := by omega
      have hroomy : r.position % 8 + taken ≤ 8 := by omega
      have hstep := chunk_eq hbyte value hroomy
      have hnext := BitReader.valueFrom_lt r.bytes r.position value taken
      obtain ⟨rest, rfl⟩ : ∃ rest, left = taken + rest := ⟨left - taken, by omega⟩
      have hroom : (BitReader.valueFrom r.bytes r.position value taken + 1) <<< rest ≤ 1 <<< 32 := by
        refine Nat.le_trans ?_ hvalue
        rw [Nat.shiftLeft_add]
        simp only [Nat.shiftLeft_eq] at hnext ⊢
        exact Nat.mul_le_mul_right _ hnext
      have hword : BitReader.valueFrom r.bytes r.position value taken < Decimal.wordLimit := by
        have hgrow := Nat.le_mul_of_pos_right
          (BitReader.valueFrom r.bytes r.position value taken + 1) (Nat.two_pow_pos rest)
        rw [Nat.shiftLeft_eq] at hroom
        rw [Decimal.wordLimit]
        omega
      have hinside : r.position + taken ≤ r.bytes.size * 8 := by omega
      have hends : r.position + taken + rest ≤ r.bytes.size * 8 := by omega
      have hrest := ih (bounded_of_le h hinside) (by omega) hends hroom
      rw [readChunks, if_neg hzero, item_eq hbyte, pure_bind, sub_eq hfree, pure_bind]
      simp only [← htaken]
      rw [sub_eq hcut, pure_bind, lowBits_eq, pure_bind, hstep, word_eq hword, pure_bind,
        moveTo_eq h hinside, pure_bind, sub_eq (by omega), pure_bind, Nat.add_sub_cancel_left, hrest,
        valueFrom_add, Nat.add_assoc]

theorem readBits_eq (h : r.Bounded) (width : Nat) : readBits r width = of (r.readBits width) := by
  have hinside : r.position ≤ r.bytes.size * 8 := h.inside
  rw [readBits, BitReader.readBits]
  by_cases hwidth : maxFieldBits < width
  · rw [if_pos hwidth, if_pos hwidth]
    rfl
  · rw [if_neg hwidth, if_neg hwidth, remaining_eq h, pure_bind]
    by_cases hleft : r.remaining < width
    · rw [if_pos hleft, if_pos hleft]
      rfl
    · rw [if_neg hleft, if_neg hleft]
      have hplace : r.position + width ≤ r.bytes.size * 8 := by
        rw [BitReader.remaining] at hleft
        omega
      have hroom : (0 + 1) <<< width ≤ 1 <<< 32 := by
        rw [Nat.shiftLeft_eq, Nat.shiftLeft_eq]
        exact Nat.mul_le_mul_left _ (Nat.pow_le_pow_right (by decide) (Nat.le_of_not_lt hwidth))
      have hvalue : BitReader.valueFrom r.bytes r.position 0 width < 1 <<< maxFieldBits :=
        Nat.lt_of_lt_of_le (BitReader.valueFrom_lt r.bytes r.position 0 width) hroom
      rw [readChunks_eq h (Nat.lt_succ_self width) hplace hroom, pure_bind]
      show (ensure (BitReader.valueFrom r.bytes r.position 0 width < 1 <<< maxFieldBits) >>= _) = _
      rw [ensure_eq hvalue]
      rfl

theorem readBit_eq (h : r.Bounded) : readBit r = of r.readBit := by
  rw [readBit, readBits_eq h, BitReader.readBit, ← of_bind]
  rfl

theorem readBytewise_eq (h : r.Bounded) {count : Nat}
    (hleft : r.position + count * 8 ≤ r.bytes.size * 8) : readBytewise count r =
      pure (BitReader.bytesFrom r.bytes r.position count, ⟨r.bytes, r.position + count * 8⟩) := by
  induction count generalizing r with
  | zero => rfl
  | succ count ih =>
    have hbyte : r.readBits 8 =
        .ok (BitReader.valueFrom r.bytes r.position 0 8, ⟨r.bytes, r.position + 8⟩) := by
      rw [BitReader.readBits, if_neg (by decide), if_neg]
      rw [BitReader.remaining]
      omega
    have hinside : r.position + 8 ≤ r.bytes.size * 8 := by omega
    have hends : r.position + 8 + count * 8 ≤ r.bytes.size * 8 := by omega
    have hlength : r.position + 8 + count * 8 = r.position + (count + 1) * 8 := by omega
    have hrest := ih (bounded_of_le h hinside) hends
    rw [readBytewise, readBits_eq h, hbyte]
    show (readBytewise count ⟨r.bytes, r.position + 8⟩ >>= _) = _
    rw [hrest, hlength, pure_bind]
    rfl

theorem readBytes_eq (h : r.Bounded) (count : Nat) : readBytes r count = of (r.readBytes count) := by
  have hinside : r.position ≤ r.bytes.size * 8 := h.inside
  have hsize := h.size_lt
  have hasked : r.remaining < min (count * 8) (Decimal.wordLimit - 1) ↔ r.remaining < count * 8 := by
    rw [BitReader.remaining, Decimal.wordLimit]
    omega
  have hcut : min (min (count * 8) (Decimal.wordLimit - 1)) 0xFFFFFFFF = min (count * 8) 0xFFFFFFFF := by
    rw [Decimal.wordLimit]
    omega
  rw [readBytes, BitReader.readBytes, remaining_eq h, pure_bind]
  simp only [hasked, hcut]
  by_cases hleft : r.remaining < count * 8
  · rw [if_pos hleft, if_pos hleft]
    rfl
  · have hends : r.position + count * 8 ≤ r.bytes.size * 8 := by
      rw [BitReader.remaining] at hleft
      omega
    have hlength : count * 8 ≤ r.bytes.size * 8 := by omega
    rw [if_neg hleft, if_neg hleft]
    show (if r.isAligned then _ else _) = _
    by_cases haligned : r.isAligned
    · rw [if_pos haligned, if_pos haligned, word_of_le h hlength, pure_bind, moveTo_eq h hends, pure_bind,
        slice_eq (Nat.le_add_right _ _) (by omega), pure_bind]
      rfl
    · rw [if_neg haligned, if_neg haligned, readBytewise_eq h hends]
      rfl

theorem skipToByte_eq (h : r.Bounded) : (skipToByte r : Guarded ε BitReader) = pure r.skipToByte := by
  have hinside : r.position ≤ r.bytes.size * 8 := h.inside
  rw [skipToByte, moveTo_eq h (by omega)]
  rfl

/-- The bits that are left of the last byte are its low ones. -/
theorem exists_last (hinside : r.Inside) (hzero : r.remaining ≠ 0) (hless : r.remaining < 8) :
    ∃ last, r.bytes[r.bytes.size - 1]? = some last ∧ 1 ≤ r.bytes.size ∧
      BitReader.valueFrom r.bytes r.position 0 r.remaining = last.toNat % 1 <<< r.remaining := by
  rw [BitReader.Inside] at hinside
  have hpos : 1 ≤ r.bytes.size := by
    rw [BitReader.remaining] at hzero
    omega
  have hlast : r.bytes.size - 1 < r.bytes.size := by omega
  have hget := Array.getElem?_eq_getElem hlast
  have hposition : r.position = (r.bytes.size - 1) * 8 + (8 - r.remaining) := by
    rw [BitReader.remaining] at *
    omega
  have hvalue := valueFrom_byte hget (8 - r.remaining) 0 (n := r.remaining) (by omega)
  have hshift : 8 - (8 - r.remaining) - r.remaining = 0 := by omega
  rw [← hposition, hshift, Nat.shiftRight_zero, Bits.toNatFrom_ofNat, Nat.zero_shiftLeft,
    Nat.zero_add] at hvalue
  exact ⟨_, hget, hpos, hvalue⟩

theorem atPadding_eq (h : r.Bounded) : (atPadding r : Guarded ε Bool) = pure r.atPadding := by
  rw [atPadding, BitReader.atPadding, remaining_eq h, pure_bind]
  by_cases hzero : r.remaining = 0
  · rw [if_pos hzero, hzero]
    rfl
  · rw [if_neg hzero]
    by_cases hbyte : 8 ≤ r.remaining
    · have hlong : ¬ r.remaining < 8 := Nat.not_lt.mpr hbyte
      simp [hbyte, hlong]
    · have hless : r.remaining < 8 := Nat.lt_of_not_le hbyte
      obtain ⟨last, hget, hpos, hvalue⟩ := exists_last h.inside hzero hless
      rw [if_neg hbyte, sub_eq hpos, pure_bind, item_eq hget, pure_bind, lowBits_eq, pure_bind, hvalue]
      simp [hless]

end Guarded
end EditHistory
