import EditHistory.Wire.BitReader
import EditHistory.Wire.BitWriter
import Mathlib.Data.List.GetD

/-! Bit strings behind the writer and the reader of fields. A writer stands for the list of bits
that it has taken in; a reader stands somewhere in the list of bits of its bytes, and what comes next
in that list is what it reads. -/
namespace EditHistory
namespace Bits

theorem testBit_two_mul_add (value n : Nat) (b : Bool) :
    (2 * value + b.toNat).testBit (n + 1) = value.testBit n := by
  have hhalf : (2 * value + b.toNat) / 2 = value := by
    cases b <;> simp only [Bool.toNat_false, Bool.toNat_true] <;> omega
  rw [Nat.testBit_succ, hhalf]

/-- A bit behind the others doubles the value. -/
theorem ofNat_two_mul_add (value n : Nat) (b : Bool) :
    ofNat (2 * value + b.toNat) (n + 1) = ofNat value n ++ [b] := by
  induction n with
  | zero =>
    have hbit : (2 * value + b.toNat).testBit 0 = b := by
      cases b <;> simp
    simp [ofNat, hbit]
  | succ n ih =>
    have hstep : ofNat (2 * value + b.toNat) (n + 2) =
        (2 * value + b.toNat).testBit (n + 1) :: ofNat (2 * value + b.toNat) (n + 1) := rfl
    rw [hstep, ih, testBit_two_mul_add]
    rfl

/-- One bit as a field. -/
theorem ofNat_toNat (b : Bool) : ofNat b.toNat 1 = [b] := by
  cases b <;> rfl

theorem ofNat_shiftLeft (value n k : Nat) :
    ofNat (value <<< k) (n + k) = ofNat value n ++ List.replicate k false := by
  induction k with
  | zero => simp
  | succ k ih =>
    have hdouble : value <<< (k + 1) = 2 * value <<< k + false.toNat := Nat.shiftLeft_succ ..
    rw [hdouble, ← Nat.add_assoc, ofNat_two_mul_add, ih, List.append_assoc, ← List.replicate_succ']

theorem toNatFrom_ofNat (acc value n : Nat) :
    toNatFrom acc (ofNat value n) = acc <<< n + value % 1 <<< n := by
  induction n generalizing acc with
  | zero => simp [ofNat, toNatFrom, Nat.mod_one]
  | succ n ih =>
    have hmod := Nat.mod_pow_succ (x := value) (b := 2) (k := n)
    have hbit := Nat.toNat_testBit value n
    simp only [Nat.shiftLeft_eq, Nat.one_mul] at ih ⊢
    have hhigh : 2 * acc * 2 ^ n = acc * (2 ^ n * 2) := by
      rw [Nat.mul_comm 2 acc, Nat.mul_assoc, Nat.mul_comm 2]
    have hlow := Nat.mul_comm (value / 2 ^ n % 2) (2 ^ n)
    rw [ofNat, toNatFrom, ih, hbit, hmod, Nat.pow_succ, Nat.add_mul, hhigh]
    omega

/-- A value that fits into its field is read back. -/
theorem toNat_ofNat {value n : Nat} (h : value < 1 <<< n) : toNat (ofNat value n) = value := by
  rw [toNat, toNatFrom_ofNat, Nat.zero_shiftLeft, Nat.zero_add, Nat.mod_eq_of_lt h]

theorem toNatFrom_append (acc : Nat) (xs ys : List Bool) :
    toNatFrom acc (xs ++ ys) = toNatFrom (toNatFrom acc xs) ys := by
  induction xs generalizing acc with
  | nil => rfl
  | cons b xs ih => exact ih _

/-- Bits behind a value never make it smaller. -/
theorem le_toNatFrom (acc : Nat) (bits : List Bool) : acc ≤ toNatFrom acc bits := by
  induction bits generalizing acc with
  | nil => exact Nat.le_refl _
  | cons b bits ih =>
    have h := ih (2 * acc + b.toNat)
    rw [toNatFrom]
    omega

theorem toNat_replicate (n : Nat) : toNat (List.replicate n false) = 0 := by
  rw [toNat]
  induction n with
  | zero => rfl
  | succ n ih => exact ih

/-- The bits of bytes, most significant bit of a byte first. -/
def ofBytes (bytes : Bytes) : List Bool := bytes.flatMap fun b => ofNat b.toNat 8

@[simp] theorem ofBytes_nil : ofBytes [] = [] := rfl

@[simp] theorem ofBytes_cons (b : UInt8) (bytes : Bytes) :
    ofBytes (b :: bytes) = ofNat b.toNat 8 ++ ofBytes bytes := rfl

@[simp] theorem ofBytes_append (xs ys : Bytes) : ofBytes (xs ++ ys) = ofBytes xs ++ ofBytes ys :=
  List.flatMap_append

@[simp] theorem length_ofBytes (bytes : Bytes) : (ofBytes bytes).length = bytes.length * 8 := by
  induction bytes with
  | nil => rfl
  | cons b bytes ih =>
    rw [ofBytes_cons, List.length_append, length_ofNat, ih, List.length_cons]
    omega

theorem ofNat_toUInt8 {value : Nat} (h : value < 256) :
    ofNat value.toUInt8.toNat 8 = ofNat value 8 := by
  have hvalue : value.toUInt8.toNat = value := UInt8.toNat_ofNat_of_lt' h
  rw [hvalue]

theorem getD_ofNat (value : Nat) {n i : Nat} (h : i < n) :
    (ofNat value n).getD i false = value.testBit (n - 1 - i) := by
  induction n generalizing i with
  | zero => omega
  | succ n ih =>
    cases i with
    | zero => rfl
    | succ i =>
      have hindex : n + 1 - 1 - (i + 1) = n - 1 - i := by omega
      rw [ofNat, List.getD_cons_succ, ih (by omega), hindex]

/-- The bit at a position of bytes. -/
theorem getD_ofBytes (bytes : Bytes) (position : Nat) :
    (ofBytes bytes).getD position false =
      (bytes.getD (position / 8) 0).toNat.testBit (7 - position % 8) := by
  induction bytes generalizing position with
  | nil => simp
  | cons b bytes ih =>
    rw [ofBytes_cons]
    by_cases h : position < 8
    · have hzero : position / 8 = 0 := by omega
      have hmod : position % 8 = position := by omega
      rw [List.getD_append _ _ _ _ (by simpa using h), getD_ofNat _ h, hzero, hmod]
      rfl
    · have hdiv : position / 8 = (position - 8) / 8 + 1 := by omega
      have hmod : position % 8 = (position - 8) % 8 := by omega
      rw [List.getD_append_right _ _ _ _ (by simpa using Nat.le_of_not_lt h), length_ofNat, ih, hdiv,
        hmod, List.getD_cons_succ]

theorem ofBytes_take (bytes : Bytes) (n : Nat) :
    ofBytes (bytes.take n) = (ofBytes bytes).take (n * 8) := by
  induction n generalizing bytes with
  | zero => simp
  | succ n ih =>
    cases bytes with
    | nil => simp
    | cons b bytes =>
      have hlen : (n + 1) * 8 = (ofNat b.toNat 8).length + n * 8 := by
        rw [length_ofNat]
        omega
      rw [List.take_succ_cons, ofBytes_cons, ih, ofBytes_cons, hlen, List.take_length_add_append]

theorem ofBytes_drop (bytes : Bytes) (n : Nat) :
    ofBytes (bytes.drop n) = (ofBytes bytes).drop (n * 8) := by
  have hsplit := ofBytes_append (bytes.take n) (bytes.drop n)
  rw [List.take_append_drop] at hsplit
  by_cases h : n ≤ bytes.length
  · have hlen : n * 8 = (ofBytes (bytes.take n)).length := by
      rw [length_ofBytes, List.length_take, Nat.min_eq_left h]
    rw [hsplit, hlen, List.drop_left]
  · rw [List.drop_eq_nil_of_le (by omega), List.drop_eq_nil_of_le (by rw [length_ofBytes]; omega)]
    rfl

theorem ofBytes_injective {xs ys : Bytes} (h : ofBytes xs = ofBytes ys) : xs = ys := by
  have hbyte (b : UInt8) : toNat (ofNat b.toNat 8) = b.toNat := toNat_ofNat b.toNat_lt
  induction xs generalizing ys with
  | nil =>
    have hlen := congrArg List.length h
    simp only [ofBytes_nil, List.length_nil, length_ofBytes] at hlen
    exact (List.length_eq_zero_iff.mp (by omega)).symm
  | cons x xs ih =>
    cases ys with
    | nil => simp [ofNat] at h
    | cons y ys =>
      obtain ⟨hhead, htail⟩ := List.append_inj h (by simp)
      have hnat := congrArg toNat hhead
      rw [hbyte, hbyte] at hnat
      rw [UInt8.toNat_inj.mp hnat, ih htail]

/-- Zeros up to the next byte boundary. -/
def padding (length : Nat) : List Bool := List.replicate ((8 - length % 8) % 8) false

def padded (bits : List Bool) : List Bool := bits ++ padding bits.length

end Bits

namespace BitWriter

/-- The bits that a writer has taken in. -/
def bits (w : BitWriter) : List Bool := Bits.ofBytes w.bytes.toList ++ Bits.ofNat w.pending w.used

@[simp] theorem bits_empty : empty.bits = [] := rfl

theorem used_eq (w : BitWriter) : w.used = w.bits.length % 8 := by
  have hlt := w.used_lt
  simp only [bits, List.length_append, Bits.length_ofBytes, Bits.length_ofNat]
  omega

theorem bits_pushBit (w : BitWriter) (b : Bool) : (w.pushBit b).bits = w.bits ++ [b] := by
  by_cases h : w.used + 1 < 8
  · simp only [pushBit, dif_pos h, bits, Bits.ofNat_two_mul_add, List.append_assoc]
  · have hused : w.used = 7 := by
      have := w.used_lt
      omega
    have hbyte : Bits.ofNat (2 * w.pending + b.toNat).toUInt8.toNat 8 =
        Bits.ofNat w.pending w.used ++ [b] := by
      have hpending := pushed_lt w.pending_lt b
      rw [hused] at hpending
      rw [Bits.ofNat_toUInt8 hpending, hused, Bits.ofNat_two_mul_add]
    rw [pushBit, dif_neg h, bits, bits, List.append_assoc, ← hbyte]
    simp [Bits.ofNat]

theorem bits_pushBits (w : BitWriter) (field : List Bool) :
    (w.pushBits field).bits = w.bits ++ field := by
  induction field generalizing w with
  | nil => simp [pushBits]
  | cons b field ih =>
    have h := ih (w.pushBit b)
    rw [bits_pushBit, List.append_assoc] at h
    exact h

/-- Values that fit are written. -/
theorem bits_writeBits (w : BitWriter) {value width : Nat} (hwidth : width ≤ maxFieldBits)
    (hvalue : value < 1 <<< width) :
    ∃ w', w.writeBits value width = .ok w' ∧ w'.bits = w.bits ++ Bits.ofNat value width := by
  refine ⟨w.pushBits (Bits.ofNat value width), ?_, bits_pushBits w _⟩
  rw [writeBits, if_neg (Nat.not_lt.mpr hwidth), if_neg (Nat.not_le.mpr hvalue)]

theorem bits_writeBytes (w : BitWriter) (bytes : Bytes) :
    (w.writeBytes bytes).bits = w.bits ++ Bits.ofBytes bytes := by
  by_cases h : w.isAligned
  · have hused : w.used = 0 := by simpa [isAligned] using h
    simp [writeBytes, if_pos h, bits, hused, Bits.ofNat]
  · have hfold (bytes : Bytes) (w : BitWriter) :
        (bytes.foldl (fun w b => w.pushBits (Bits.ofNat b.toNat 8)) w).bits =
          w.bits ++ Bits.ofBytes bytes := by
      induction bytes generalizing w with
      | nil => simp
      | cons b bytes ih => rw [List.foldl_cons, ih, bits_pushBits, Bits.ofBytes_cons,
          List.append_assoc]
    rw [writeBytes, if_neg h, hfold]

/-- The byte begun, filled up with zeros. -/
theorem ofNat_pending (w : BitWriter) :
    Bits.ofNat (w.pending <<< (8 - w.used)).toUInt8.toNat 8 =
      Bits.ofNat w.pending w.used ++ List.replicate (8 - w.used) false := by
  have hsum : w.used + (8 - w.used) = 8 := Nat.add_sub_cancel' (Nat.le_of_lt w.used_lt)
  have hpending : w.pending <<< (8 - w.used) < 256 := by
    have hpow : (256 : Nat) = 2 ^ w.used * 2 ^ (8 - w.used) := by rw [← Nat.pow_add, hsum]
    have hlt := w.pending_lt
    rw [Nat.one_shiftLeft] at hlt
    rw [Nat.shiftLeft_eq, hpow]
    exact Nat.mul_lt_mul_of_pos_right hlt (Nat.two_pow_pos _)
  have hbyte := Bits.ofNat_shiftLeft w.pending w.used (8 - w.used)
  rwa [hsum, ← Bits.ofNat_toUInt8 hpending] at hbyte

theorem bits_padToByte (w : BitWriter) : w.padToByte.bits = Bits.padded w.bits := by
  have hlt := w.used_lt
  by_cases h : w.isAligned
  · have hused : w.used = 0 := by simpa [isAligned] using h
    rw [used_eq] at hused
    simp [padToByte, if_pos h, Bits.padded, Bits.padding, hused]
  · have hused : w.used ≠ 0 := by simpa [isAligned] using h
    have hcount : (8 - w.used) % 8 = 8 - w.used := by omega
    rw [Bits.padded, Bits.padding, ← used_eq, hcount, padToByte, if_neg h, bits, bits,
      List.append_assoc, ← w.ofNat_pending]
    simp [Bits.ofNat]

/-- The finished bytes hold the bits that were taken in, filled up with zeros. -/
theorem ofBytes_finish (w : BitWriter) : Bits.ofBytes w.finish = Bits.padded w.bits := by
  rw [← bits_padToByte, finish, bits]
  have hused : w.padToByte.used = 0 := by
    rw [padToByte]
    split
    · rename_i h
      simpa [isAligned] using h
    · rfl
  rw [hused]
  simp [Bits.ofNat]

end BitWriter

namespace BitReader

/-- The bits `read` are behind the reader, and `rest` comes next. -/
structure Stands (r : BitReader) (read rest : List Bool) : Prop where
  bits_eq : Bits.ofBytes r.bytes.toList = read ++ rest
  position_eq : r.position = read.length

theorem stands_ofBytes (bytes : Bytes) : (ofBytes bytes).Stands [] (Bits.ofBytes bytes) :=
  ⟨rfl, rfl⟩

variable {r : BitReader} {read rest : List Bool}

theorem Stands.remaining_eq (h : r.Stands read rest) : r.remaining = rest.length := by
  have hlen := congrArg List.length h.bits_eq
  rw [Bits.length_ofBytes, Array.length_toList, List.length_append] at hlen
  rw [remaining, h.position_eq]
  omega

/-- What is behind the reader grows by what it steps over. -/
theorem Stands.advance {field : List Bool} (h : r.Stands read (field ++ rest)) {position : Nat}
    (hposition : position = read.length + field.length) :
    (⟨r.bytes, position⟩ : BitReader).Stands (read ++ field) rest :=
  ⟨by rw [List.append_assoc]; exact h.bits_eq, by rw [List.length_append]; exact hposition⟩

theorem valueFrom_eq {bytes : Array UInt8} {field : List Bool}
    (h : Bits.ofBytes bytes.toList = read ++ (field ++ rest)) (acc : Nat) :
    valueFrom bytes read.length acc field.length = Bits.toNatFrom acc field := by
  induction field generalizing read acc with
  | nil => rfl
  | cons b field ih =>
    have hbit : bitAt bytes read.length = b := by
      have hget := Bits.getD_ofBytes bytes.toList read.length
      rw [h] at hget
      simpa [bitAt] using hget.symm
    have h' : Bits.ofBytes bytes.toList = (read ++ [b]) ++ (field ++ rest) := by
      rw [h, List.append_assoc]
      rfl
    have hrest := ih h' (2 * acc + b.toNat)
    rw [List.length_append, List.length_singleton] at hrest
    rw [List.length_cons, valueFrom, hbit, hrest]
    rfl

theorem Stands.readBits {value width : Nat} (h : r.Stands read (Bits.ofNat value width ++ rest))
    (hwidth : width ≤ maxFieldBits) (hvalue : value < 1 <<< width) :
    ∃ r', r.readBits width = .ok (value, r') ∧ r'.Stands (read ++ Bits.ofNat value width) rest := by
  refine ⟨⟨r.bytes, r.position + width⟩, ?_, h.advance (by rw [h.position_eq, Bits.length_ofNat])⟩
  have hremaining := h.remaining_eq
  rw [List.length_append, Bits.length_ofNat] at hremaining
  have hread := valueFrom_eq h.bits_eq 0
  rw [Bits.length_ofNat, ← h.position_eq] at hread
  rw [BitReader.readBits, if_neg (Nat.not_lt.mpr hwidth), if_neg (by omega), hread]
  have hback := Bits.toNat_ofNat hvalue
  rw [Bits.toNat] at hback
  rw [hback]

theorem Stands.readBit {b : Bool} (h : r.Stands read (b :: rest)) :
    ∃ r', r.readBit = .ok (b, r') ∧ r'.Stands (read ++ [b]) rest := by
  have hfield : Bits.ofNat b.toNat 1 = [b] := Bits.ofNat_toNat b
  have hbits : r.Stands read (Bits.ofNat b.toNat 1 ++ rest) := by rwa [hfield]
  obtain ⟨r', hread, hstands⟩ := hbits.readBits (by decide) b.toNat_lt
  rw [hfield] at hstands
  refine ⟨r', ?_, hstands⟩
  rw [BitReader.readBit, hread]
  cases b <;> rfl

theorem bytesFrom_eq {bytes : Array UInt8} {field : Bytes}
    (h : Bits.ofBytes bytes.toList = read ++ (Bits.ofBytes field ++ rest)) :
    bytesFrom bytes read.length field.length = field := by
  induction field generalizing read with
  | nil => rfl
  | cons b field ih =>
    rw [Bits.ofBytes_cons, List.append_assoc] at h
    have hvalue := valueFrom_eq h 0
    have hback : Bits.toNatFrom 0 (Bits.ofNat b.toNat 8) = b.toNat := Bits.toNat_ofNat b.toNat_lt
    rw [Bits.length_ofNat, hback] at hvalue
    rw [← List.append_assoc] at h
    have hrest := ih h
    rw [List.length_append, Bits.length_ofNat] at hrest
    rw [List.length_cons, bytesFrom, hvalue, hrest]
    simp

theorem Stands.readBytes {bytes : Bytes} (h : r.Stands read (Bits.ofBytes bytes ++ rest)) :
    ∃ r', r.readBytes bytes.length = .ok (bytes, r') ∧
      r'.Stands (read ++ Bits.ofBytes bytes) rest := by
  refine ⟨⟨r.bytes, r.position + bytes.length * 8⟩, ?_,
    h.advance (by rw [h.position_eq, Bits.length_ofBytes])⟩
  have hremaining := h.remaining_eq
  rw [List.length_append, Bits.length_ofBytes] at hremaining
  rw [BitReader.readBytes, if_neg (by omega)]
  by_cases haligned : r.isAligned
  · have hmod : r.position % 8 = 0 := by simpa [isAligned] using haligned
    have hstart : r.position / 8 * 8 = read.length := by
      rw [← h.position_eq]
      omega
    have hextract : (r.bytes.extract (r.position / 8) (r.position / 8 + bytes.length)).toList =
        bytes := by
      apply Bits.ofBytes_injective
      rw [Array.toList_extract, List.extract_eq_take_drop, Nat.add_sub_cancel_left,
        Bits.ofBytes_take, Bits.ofBytes_drop, h.bits_eq, hstart, List.drop_left,
        ← Bits.length_ofBytes, List.take_left]
    simp only [if_pos haligned, hextract]
  · have hread := bytesFrom_eq h.bits_eq
    rw [← h.position_eq] at hread
    simp only [if_neg haligned, hread]

/-- All that comes next, read as one field. -/
theorem Stands.value_eq (h : r.Stands read rest) :
    valueFrom r.bytes r.position 0 r.remaining = Bits.toNat rest := by
  have hvalue := valueFrom_eq (h.bits_eq.trans (by rw [List.append_nil])) 0
  rw [h.remaining_eq, h.position_eq, hvalue, Bits.toNat]

/-- Zeros up to the next byte boundary, and nothing behind them, are padding. -/
theorem Stands.atPadding (h : r.Stands read (Bits.padding read.length)) : r.atPadding = true := by
  have hlt : r.remaining < 8 := by
    rw [h.remaining_eq, Bits.padding, List.length_replicate]
    omega
  have hzero := h.value_eq
  rw [Bits.padding, Bits.toNat_replicate] at hzero
  simp [BitReader.atPadding, hlt, hzero]

theorem Stands.skipToByte (h : r.Stands read (Bits.padding read.length ++ rest)) :
    r.skipToByte.Stands (Bits.padded read) rest := by
  refine h.advance ?_
  rw [h.position_eq, Bits.padding, List.length_replicate]
  omega

end BitReader
end EditHistory
