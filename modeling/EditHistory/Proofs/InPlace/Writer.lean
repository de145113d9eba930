import EditHistory.Proofs.InPlace.Basic
import EditHistory.Proofs.Wire.Bits

/-! The writer of bits in place. It fills its bytes up from the high bits, as many bits of a field at a
time as the byte begun has room for, where the plain writer takes bit after bit. -/
namespace EditHistory

namespace Bits

/-- The high bits of a field and the low ones. -/
theorem ofNat_add (value m n : Nat) : ofNat value (m + n) = ofNat (value >>> n) m ++ ofNat value n := by
  induction m with
  | zero => rw [Nat.zero_add, ofNat, List.nil_append]
  | succ m ih =>
    rw [Nat.succ_add, ofNat, ofNat, Nat.testBit_shiftRight, Nat.add_comm n m, ih, List.cons_append]

end Bits

namespace InPlace

/-- Whole bytes, and the byte begun, of which the high bits are used and the others zero. -/
structure Writer where
  bytes : Array UInt8
  current : UInt8
  used : Nat

namespace Writer

def empty : Writer := ⟨#[], 0, 0⟩

def isAligned (w : Writer) : Bool := w.used == 0

def bitLength (w : Writer) : Nat := w.bytes.size * 8 + w.used

/-- The byte begun joins the whole ones. -/
def flush (w : Writer) : Writer := ⟨w.bytes.push w.current, 0, 0⟩

/-- Puts a value behind the bits used, and joins the byte to the whole ones if that fills it. -/
def push (w : Writer) (value width : Nat) : Writer :=
  let next : Writer := { w with
    current := w.current ||| (value <<< (8 - w.used - width)).toUInt8
    used := w.used + width }
  if next.used = 8 then next.flush else next

def padded (w : Writer) : Writer := if 0 < w.used then w.flush else w

def finish (w : Writer) : Bytes := w.padded.bytes.toList

/-- The bits that a writer has taken in. -/
def bits (w : Writer) : List Bool :=
  Bits.ofBytes w.bytes.toList ++ (Bits.ofNat w.current.toNat 8).take w.used

/-- A writer with the same bits. -/
def ofPlain (w : BitWriter) : Writer := ⟨w.bytes, (w.pending <<< (8 - w.used)).toUInt8, w.used⟩

@[simp] theorem used_ofPlain (w : BitWriter) : (ofPlain w).used = w.used := rfl

end Writer

/-- Writes the bits of a value that are `left`, for so many turns at most: in every turn the high ones of
them, as many as there is room for. -/
def writeChunks (value : Nat) : Nat → Nat → InPlace Writer BitError Unit
  | 0, _ => guarded Guarded.fault
  | turns + 1, left =>
    if left = 0 then return ()
    else do
      let w ← get
      let free ← guarded (Guarded.sub 8 w.used)
      let taken := min free left
      let below ← guarded (Guarded.sub left taken)
      let bits ← guarded (Guarded.lowBits (value >>> below) taken)
      set (w.push bits taken)
      writeChunks value turns below

def writeBits (value width : Nat) : InPlace Writer BitError Unit :=
  if maxFieldBits < width then throw (.widthTooLarge width)
  else do
    let low ← guarded (Guarded.lowBits value width)
    if low ≠ value then throw (.valueOverflow value width)
    else writeChunks value (width + 1) width

/-- An error would be passed over. -/
def writeField (value width : Nat) : InPlace Writer BitError Unit :=
  tryCatch (writeBits value width) fun _ => return ()

def writeBit (b : Bool) : InPlace Writer BitError Unit := writeField b.toNat 1

/-- Writes whole bytes: at a byte boundary as they are, elsewhere as fields of eight bits. -/
def writeBytes (bytes : Bytes) : InPlace Writer BitError Unit := do
  let w ← get
  if w.isAligned then set { w with bytes := w.bytes ++ bytes }
  else forM bytes fun b => writeField b.toNat 8

def padToByte : InPlace Writer BitError Unit := modify Writer.padded

/-! ## The same as the plain writer -/

/-- The bits used are the high ones of the byte begun. -/
theorem bits_ofPlain (w : BitWriter) : (Writer.ofPlain w).bits = w.bits := by
  rw [Writer.bits, BitWriter.bits, Writer.ofPlain, w.ofNat_pending]
  simp

/-- Bits for which there is room go into the byte begun. -/
theorem ofPlain_pushBits {w : BitWriter} {field : List Bool} (h : w.used + field.length ≤ 8) :
    Writer.ofPlain (w.pushBits field) =
      let next : Writer := ⟨w.bytes,
        (Bits.toNatFrom w.pending field <<< (8 - (w.used + field.length))).toUInt8,
        w.used + field.length⟩
      if next.used = 8 then next.flush else next := by
  induction field generalizing w with
  | nil =>
    have hlt := w.used_lt
    have hroom : w.used ≠ 8 := by omega
    simp [BitWriter.pushBits, Writer.ofPlain, Bits.toNatFrom, hroom]
  | cons b field ih =>
    have hpush : w.pushBits (b :: field) = (w.pushBit b).pushBits field := rfl
    rw [List.length_cons] at h
    by_cases hmore : w.used + 1 < 8
    · have hbit : w.pushBit b = ⟨w.bytes, 2 * w.pending + b.toNat, w.used + 1, hmore,
          BitWriter.pushed_lt w.pending_lt b⟩ := by rw [BitWriter.pushBit, dif_pos hmore]
      have hused : w.used + 1 + field.length = w.used + (field.length + 1) := by omega
      rw [hpush, hbit, ih (by simpa [hused] using h)]
      simp only [hused, List.length_cons, Bits.toNatFrom]
    · -- the last bit for which there is room
      have hlt := w.used_lt
      have hused : w.used = 7 := by omega
      obtain rfl : field = [] := List.length_eq_zero_iff.mp (by omega)
      simp [BitWriter.pushBits, BitWriter.pushBit, hused, Writer.ofPlain, Writer.flush,
        Bits.toNatFrom]

/-- Under a mask the bits of one turn join those used without touching them. -/
theorem push_ofPlain {w : BitWriter} {width : Nat} (value : Nat) (h : w.used + width ≤ 8) :
    (Writer.ofPlain w).push (value % 1 <<< width) width =
      .ofPlain (w.pushBits (Bits.ofNat value width)) := by
  have hlow : value % 1 <<< width < 2 ^ width := by
    rw [Nat.one_shiftLeft]
    exact Nat.mod_lt _ (Nat.two_pow_pos width)
  have hjoin : (w.pending <<< (8 - w.used)).toUInt8 |||
        ((value % 1 <<< width) <<< (8 - w.used - width)).toUInt8 =
      (Bits.toNatFrom w.pending (Bits.ofNat value width) <<< (8 - (w.used + width))).toUInt8 := by
    have hshift : 8 - w.used = width + (8 - (w.used + width)) := by omega
    rw [Nat.sub_sub, hshift, Nat.shiftLeft_add, Bits.toNatFrom_ofNat,
      Nat.shiftLeft_add_eq_or_of_lt hlow, Nat.shiftLeft_or_distrib]
    exact (UInt8.ofNat_or _ _).symm
  have hfits : w.used + (Bits.ofNat value width).length ≤ 8 := by rwa [Bits.length_ofNat]
  rw [ofPlain_pushBits hfits, Bits.length_ofNat, ← hjoin]
  rfl

theorem pushBits_append (w : BitWriter) (xs ys : List Bool) :
    w.pushBits (xs ++ ys) = (w.pushBits xs).pushBits ys := List.foldl_append

theorem writeChunks_eq {turns left : Nat} (h : left < turns) (w : BitWriter) (value : Nat) :
    writeChunks value turns left (.ofPlain w) =
      some (.ok (), .ofPlain (w.pushBits (Bits.ofNat value left))) := by
  induction turns generalizing left w with
  | zero => omega
  | succ turns ih =>
    by_cases hzero : left = 0
    · subst hzero
      rw [writeChunks, if_pos rfl]
      rfl
    · -- one turn takes the high ones of the bits that are left, as many as there is room for
      have hlt := w.used_lt
      obtain ⟨taken, htaken⟩ : ∃ taken, taken = min (8 - w.used) left := ⟨_, rfl⟩
      obtain ⟨below, rfl⟩ : ∃ below, left = taken + below := ⟨left - taken, by omega⟩
      have hroom : w.used + taken ≤ 8 := by omega
      have hfuel : below < turns := by omega
      have hrest := ih hfuel (w.pushBits (Bits.ofNat (value >>> below) taken))
      rw [← pushBits_append, ← Bits.ofNat_add, ← push_ofPlain _ hroom] at hrest
      rw [writeChunks, if_neg hzero, get_bind, Writer.used_ofPlain,
        guarded_bind (Guarded.sub_eq (Nat.le_of_lt hlt))]
      simp only [← htaken]
      rw [guarded_bind (Guarded.sub_eq (Nat.le_add_right ..)), Nat.add_sub_cancel_left,
        guarded_bind (Guarded.lowBits_eq ..), set_bind, hrest]

theorem writeBits_of_ok {w w' : BitWriter} {value width : Nat} (h : w.writeBits value width = .ok w') :
    writeBits value width (.ofPlain w) = some (.ok (), .ofPlain w') := by
  rw [BitWriter.writeBits] at h
  split at h
  · cases h
  · rename_i hwidth
    split at h
    · cases h
    · rename_i hvalue
      obtain rfl := Except.ok.inj h
      have hlow : value % 1 <<< width = value := Nat.mod_eq_of_lt (Nat.lt_of_not_le hvalue)
      rw [writeBits, if_neg hwidth, guarded_bind (Guarded.lowBits_eq ..), if_neg (by simp [hlow]),
        writeChunks_eq (Nat.lt_succ_self width)]

theorem writeBits_of_error {w : BitWriter} {value width : Nat} {e : BitError}
    (h : w.writeBits value width = .error e) :
    writeBits value width (.ofPlain w) = some (.error e, .ofPlain w) := by
  rw [BitWriter.writeBits] at h
  split at h
  · rename_i hwidth
    obtain rfl := Except.error.inj h
    rw [writeBits, if_pos hwidth]
    rfl
  · rename_i hwidth
    split at h
    · rename_i hvalue
      obtain rfl := Except.error.inj h
      have hpos : 0 < 1 <<< width := by
        rw [Nat.one_shiftLeft]
        exact Nat.two_pow_pos width
      have hlow : value % 1 <<< width ≠ value :=
        Nat.ne_of_lt (Nat.lt_of_lt_of_le (Nat.mod_lt _ hpos) hvalue)
      rw [writeBits, if_neg hwidth, guarded_bind (Guarded.lowBits_eq ..), if_pos hlow]
      rfl
    · cases h

theorem writeField_eq (w : BitWriter) {value width : Nat} (hwidth : width ≤ maxFieldBits)
    (hvalue : value < 1 <<< width) : writeField value width (.ofPlain w) =
      some (.ok (), .ofPlain (w.pushBits (Bits.ofNat value width))) := by
  have hwrite : w.writeBits value width = .ok (w.pushBits (Bits.ofNat value width)) := by
    rw [BitWriter.writeBits, if_neg (Nat.not_lt.mpr hwidth), if_neg (Nat.not_le.mpr hvalue)]
  exact tryCatch_of_ok (writeBits_of_ok hwrite) _

theorem writeBit_eq (w : BitWriter) (b : Bool) :
    writeBit b (.ofPlain w) = some (.ok (), .ofPlain (w.pushBit b)) := by
  rw [writeBit, writeField_eq w (by decide) b.toNat_lt, Bits.ofNat_toNat]
  rfl

/-- Elsewhere than at a byte boundary. -/
theorem forM_writeField_eq (w : BitWriter) (bytes : Bytes) :
    (forM bytes fun b => writeField b.toNat 8) (.ofPlain w) = some (.ok (), .ofPlain
      (bytes.foldl (fun w b => w.pushBits (Bits.ofNat b.toNat 8)) w)) := by
  induction bytes generalizing w with
  | nil => rfl
  | cons b bytes ih =>
    rw [List.forM_cons, bind_of_ok (writeField_eq w (by decide) b.toNat_lt), ih, List.foldl_cons]

theorem writeBytes_eq (w : BitWriter) (bytes : Bytes) :
    writeBytes bytes (.ofPlain w) = some (.ok (), .ofPlain (w.writeBytes bytes)) := by
  have haligned : (Writer.ofPlain w).isAligned = w.isAligned := rfl
  rw [writeBytes, get_bind, haligned, BitWriter.writeBytes]
  by_cases h : w.isAligned
  · rw [if_pos h, if_pos h]
    rfl
  · rw [if_neg h, if_neg h, forM_writeField_eq]

theorem padded_ofPlain (w : BitWriter) : (Writer.ofPlain w).padded = .ofPlain w.padToByte := by
  rw [Writer.padded, Writer.used_ofPlain, BitWriter.padToByte]
  by_cases h : w.isAligned
  · have hused : w.used = 0 := by simpa [BitWriter.isAligned] using h
    rw [if_pos h, if_neg (by simp [hused])]
  · have hused : 0 < w.used := Nat.pos_of_ne_zero (by simpa [BitWriter.isAligned] using h)
    rw [if_neg h, if_pos hused]
    rfl

theorem padToByte_eq (w : BitWriter) :
    padToByte (.ofPlain w) = some (.ok (), .ofPlain w.padToByte) := by
  rw [← padded_ofPlain]
  rfl

theorem finish_ofPlain (w : BitWriter) : (Writer.ofPlain w).finish = w.finish := by
  rw [Writer.finish, padded_ofPlain]
  rfl

end InPlace
end EditHistory
