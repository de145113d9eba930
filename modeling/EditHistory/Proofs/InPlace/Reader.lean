import EditHistory.Proofs.InPlace.Basic
import EditHistory.Proofs.Guarded.Reader

/-! The reader of bits in place. It moves on with every byte, or part of one, that it takes, so a read that
failed on the way would have lost its place. -/
namespace EditHistory
namespace InPlace

/-- The number of bits in front of the end. -/
def remaining : InPlace BitReader BitError Nat := do
  let r ← get
  guarded (Guarded.sub (r.bytes.size * 8) r.position)

/-- Adds what the byte at the position has of the bits that are `left`, for so many turns at most. -/
def readChunks : Nat → Nat → Nat → InPlace BitReader BitError Nat
  | 0, _, _ => guarded Guarded.fault
  | turns + 1, value, left =>
    if left = 0 then return value
    else do
      let r ← get
      let byte ← guarded (Guarded.item r.bytes (r.position / 8))
      let free ← guarded (Guarded.sub 8 (r.position % 8))
      let taken := min free left
      let below ← guarded (Guarded.sub left taken)
      let bits ← guarded (Guarded.lowBits (byte.toNat >>> (free - taken)) taken)
      set { r with position := r.position + taken }
      readChunks turns (value <<< taken ||| bits) below

def readBits (width : Nat) : InPlace BitReader BitError Nat :=
  if maxFieldBits < width then throw (.widthTooLarge width)
  else do
    let available ← remaining
    if available < width then throw (.endOfStream width available)
    else do
      let value ← readChunks (width + 1) 0 width
      return value % 1 <<< maxFieldBits

def readBit : InPlace BitReader BitError Bool := do
  return (← readBits 1) == 1

def readBytewise : Nat → InPlace BitReader BitError Bytes
  | 0 => return []
  | n + 1 => do
    let value ← readBits 8
    let rest ← readBytewise n
    return value.toUInt8 :: rest

/-- Reads whole bytes: at a byte boundary as they are, elsewhere as fields of eight bits. -/
def readBytes (count : Nat) : InPlace BitReader BitError Bytes := do
  let available ← remaining
  if available < count * 8 then throw (.endOfStream (min (count * 8) 0xFFFFFFFF) available)
  else do
    let r ← get
    if r.isAligned then do
      set { r with position := r.position + count * 8 }
      let bytes ← guarded (Guarded.slice r.bytes (r.position / 8) (r.position / 8 + count))
      return bytes.toList
    else readBytewise count

def skipToByte : InPlace BitReader BitError Unit :=
  modify fun r => { r with position := (r.position + 7) / 8 * 8 }

def atPadding : InPlace BitReader BitError Bool := do
  let left ← remaining
  if left = 0 then return true
  else if 8 ≤ left then return false
  else do
    let r ← get
    let last ← guarded (Guarded.item r.bytes (← guarded (Guarded.sub r.bytes.size 1)))
    let bits ← guarded (Guarded.lowBits last.toNat left)
    return bits == 0

/-! ## The same as the plain reader -/

variable {r r' : BitReader}

theorem remaining_eq (h : r.Inside) : remaining r = some (.ok r.remaining, r) := by
  have hsub : (Guarded.sub (r.bytes.size * 8) r.position : Guarded BitError Nat) = pure r.remaining :=
    Guarded.sub_eq h
  rw [remaining, get_bind, hsub]
  rfl

theorem readChunks_eq {turns left : Nat} (hturns : left < turns)
    (hleft : r.position + left ≤ r.bytes.size * 8) (value : Nat) :
    readChunks turns value left r = some
      (.ok (BitReader.valueFrom r.bytes r.position value left), ⟨r.bytes, r.position + left⟩) := by
  induction turns generalizing r value left with
  | zero => omega
  | succ turns ih =>
    by_cases hzero : left = 0
    · subst hzero
      rw [readChunks, if_pos rfl]
      rfl
    · -- one turn takes what is left of the byte at the position, or all that is asked for
      have hplace : r.position / 8 < r.bytes.size := by omega
      have hbyte := Array.getElem?_eq_getElem hplace
      obtain ⟨taken, htaken⟩ : ∃ taken, taken = min (8 - r.position % 8) left := ⟨_, rfl⟩
      obtain ⟨below, rfl⟩ : ∃ below, left = taken + below := ⟨left - taken, by omega⟩
      have hroom : r.position % 8 + taken ≤ 8 := by omega
      have hends : r.position + taken + below ≤ r.bytes.size * 8 := by omega
      have hfuel : below < turns := by omega
      have hrest := ih (r := ⟨r.bytes, r.position + taken⟩) hfuel hends
        (BitReader.valueFrom r.bytes r.position value taken)
      rw [readChunks, if_neg hzero, get_bind, guarded_bind (Guarded.item_eq hbyte),
        guarded_bind (Guarded.sub_eq (by omega))]
      simp only [← htaken]
      rw [guarded_bind (Guarded.sub_eq (Nat.le_add_right ..)), Nat.add_sub_cancel_left,
        guarded_bind (Guarded.lowBits_eq ..), set_bind, Guarded.chunk_eq hbyte value hroom, hrest,
        Guarded.valueFrom_add, Nat.add_assoc]

theorem readBits_eq (hinside : r.Inside) (width : Nat) :
    readBits width r = step (·.readBits width) r := by
  rw [BitReader.Inside] at hinside
  rw [readBits, step, BitReader.readBits]
  by_cases hwidth : maxFieldBits < width
  · rw [if_pos hwidth, if_pos hwidth]
    rfl
  · rw [if_neg hwidth, if_neg hwidth, bind_of_ok (remaining_eq hinside)]
    by_cases hleft : r.remaining < width
    · rw [if_pos hleft, if_pos hleft]
      rfl
    · have hends : r.position + width ≤ r.bytes.size * 8 := by
        rw [BitReader.remaining] at hleft
        omega
      have hvalue : BitReader.valueFrom r.bytes r.position 0 width < 1 <<< maxFieldBits := by
        refine Nat.lt_of_lt_of_le (BitReader.valueFrom_lt r.bytes r.position 0 width) ?_
        rw [Nat.shiftLeft_eq, Nat.shiftLeft_eq]
        exact Nat.mul_le_mul_left _ (Nat.pow_le_pow_right (by decide) (Nat.le_of_not_lt hwidth))
      rw [if_neg hleft, if_neg hleft, bind_of_ok (readChunks_eq (Nat.lt_succ_self width) hends 0),
        Nat.mod_eq_of_lt hvalue]
      rfl

theorem readBit_eq (hinside : r.Inside) : readBit r = step (·.readBit) r := by
  rw [readBit, bind_pure_of_step (readBits_eq hinside 1)]
  rfl

/-- With so many bits in front of the end no field is refused on the way. -/
theorem readBytewise_eq {count : Nat} (hleft : r.position + count * 8 ≤ r.bytes.size * 8) :
    readBytewise count r = some
      (.ok (BitReader.bytesFrom r.bytes r.position count), ⟨r.bytes, r.position + count * 8⟩) := by
  induction count generalizing r with
  | zero => rfl
  | succ count ih =>
    have hbyte : r.readBits 8 =
        .ok (BitReader.valueFrom r.bytes r.position 0 8, ⟨r.bytes, r.position + 8⟩) := by
      rw [BitReader.readBits, if_neg (by decide), if_neg]
      rw [BitReader.remaining]
      omega
    have hinside : r.Inside := by
      rw [BitReader.Inside]
      omega
    have hends : r.position + 8 + count * 8 ≤ r.bytes.size * 8 := by omega
    have hrest := ih (r := ⟨r.bytes, r.position + 8⟩) hends
    have hlength : r.position + 8 + count * 8 = r.position + (count + 1) * 8 := by omega
    have hfield := (readBits_eq hinside 8).trans (step_of_ok hbyte)
    rw [readBytewise, bind_of_ok hfield, bind_of_ok hrest, hlength]
    rfl

theorem readBytes_eq (hinside : r.Inside) (count : Nat) :
    readBytes count r = step (·.readBytes count) r := by
  rw [BitReader.Inside] at hinside
  rw [readBytes, bind_of_ok (remaining_eq hinside), step, BitReader.readBytes]
  by_cases hleft : r.remaining < count * 8
  · rw [if_pos hleft, if_pos hleft]
    rfl
  · have hends : r.position + count * 8 ≤ r.bytes.size * 8 := by
      rw [BitReader.remaining] at hleft
      omega
    rw [if_neg hleft, if_neg hleft, get_bind]
    by_cases haligned : r.isAligned
    · have hstop : r.position / 8 + count ≤ r.bytes.size := by omega
      have hslice : (Guarded.slice r.bytes (r.position / 8) (r.position / 8 + count) :
          Guarded BitError _) = pure _ := Guarded.slice_eq (Nat.le_add_right ..) hstop
      rw [if_pos haligned, set_bind, guarded_bind hslice]
      simp only [haligned]
      rfl
    · rw [if_neg haligned, readBytewise_eq hends]
      simp only [haligned]
      rfl

theorem skipToByte_eq (r : BitReader) : skipToByte r = some (.ok (), r.skipToByte) := rfl

theorem atPadding_eq (hinside : r.Inside) : atPadding r = some (.ok r.atPadding, r) := by
  rw [atPadding, bind_of_ok (remaining_eq hinside), BitReader.atPadding]
  by_cases hzero : r.remaining = 0
  · rw [if_pos hzero, hzero]
    rfl
  · rw [if_neg hzero]
    by_cases hbyte : 8 ≤ r.remaining
    · have hlong : ¬ r.remaining < 8 := Nat.not_lt.mpr hbyte
      rw [if_pos hbyte, decide_eq_false hlong]
      rfl
    · have hless : r.remaining < 8 := Nat.lt_of_not_le hbyte
      obtain ⟨last, hget, hpos, hvalue⟩ := Guarded.exists_last hinside hzero hless
      rw [if_neg hbyte, get_bind, guarded_bind (Guarded.sub_eq hpos), guarded_bind (Guarded.item_eq hget),
        guarded_bind (Guarded.lowBits_eq ..), hvalue, decide_eq_true hless]
      rfl

end InPlace
end EditHistory
