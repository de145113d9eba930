import EditHistory.Proofs.CommandLine.ByteSize
import EditHistory.Proofs.Guarded.Basic
import EditHistory.Proofs.Text.Utf8

/-! Byte sizes read from bytes. The suffix is looked for in the last byte and cut off by its position, which
may be inside a character; it never is, for a byte that is a suffix is a character of its own. -/
namespace EditHistory
namespace Guarded

variable {ε : Type}

/-- The characters in front of the byte at `stop`; a fault inside a character or behind the end. -/
def charsTo : List Char → Nat → Guarded ε (List Char)
  | _, 0 => return []
  | [], _ + 1 => fault
  | c :: cs, stop + 1 => do
    let rest ← sub (stop + 1) (Utf8.ofScalar c.toNat).length
    return c :: (← charsTo cs rest)

/-- The byte of a character below 0x80. -/
def byteOf (c : Char) : UInt8 := c.toNat.toUInt8

def factorOf? (b : UInt8) : Option Nat :=
  if b = byteOf 'k' || b = byteOf 'K' then some 1024
  else if b = byteOf 'm' || b = byteOf 'M' then some (1024 * 1024)
  else if b = byteOf 'g' || b = byteOf 'G' then some (1024 * 1024 * 1024)
  else none

def splitSuffix (text : List Char) : Guarded ε (List Char × Nat) := do
  let bytes := Utf8.ofChars text
  match bytes.getLast?.bind factorOf? with
  | some factor => return (← charsTo text (← sub bytes.length 1), factor)
  | none => return (text, 1)

/-- Reads a size. The product is only taken where it is a word. -/
def readSize (s : List Char) : Guarded ByteSize.Fault Nat := do
  let text := trim s
  if text.isEmpty then throw .empty
  let (numeral, factor) ← splitSuffix text
  match Decimal.read (trim numeral) with
  | .error fault => throw (.invalid text fault)
  | .ok n => if n * factor < Decimal.wordLimit then word (n * factor) else throw (.overflow text)

/-! ## No faults -/

theorem charsTo_append (front back : List Char) :
    (charsTo (front ++ back) (Utf8.ofChars front).length : Guarded ε (List Char)) = pure front := by
  induction front with
  | nil => cases back <;> rfl
  | cons c front ih =>
    have hpos : 0 < (Utf8.ofScalar c.toNat).length :=
      List.length_pos_iff.mpr (Utf8.ofScalar_ne_nil c.toNat)
    have hlength : (Utf8.ofChars (c :: front)).length =
        (Utf8.ofScalar c.toNat).length + (Utf8.ofChars front).length := by
      rw [Utf8.ofChars, List.flatMap_cons, List.length_append, Utf8.ofChars]
    obtain ⟨stop, hstop⟩ : ∃ stop, (Utf8.ofChars (c :: front)).length = stop + 1 :=
      Nat.exists_eq_add_one.mpr (by omega)
    have hrest : stop + 1 - (Utf8.ofScalar c.toNat).length = (Utf8.ofChars front).length := by omega
    rw [hstop, List.cons_append, charsTo, sub_eq (by omega), pure_bind, hrest, ih, pure_bind]

theorem byteOf_inj {c d : Char} (hc : c.toNat < 0x80) (hd : d.toNat < 0x80) :
    byteOf c = byteOf d ↔ c = d := by
  rw [← UInt8.toNat_inj, byteOf, byteOf, Utf8.toNat_toUInt8 _ (by omega), Utf8.toNat_toUInt8 _ (by omega),
    Char.toNat_inj]

/-- A byte is a suffix if its character is one. -/
theorem factorOf?_byteOf {c : Char} (hc : c.toNat < 0x80) :
    factorOf? (byteOf c) = ByteSize.factor? c := by
  have hsame {d : Char} (hd : d.toNat < 0x80) : (byteOf c = byteOf d) = (c = d) :=
    propext (byteOf_inj hc hd)
  simp (disch := decide) only [factorOf?, ByteSize.factor?, hsame]

theorem factorOf?_eq_none {b : UInt8} (hb : 0x80 ≤ b.toNat) : factorOf? b = none := by
  have hne {d : Char} (hd : d.toNat < 0x80) : (b = byteOf d) = False := by
    refine propext ⟨?_, False.elim⟩
    rintro rfl
    rw [byteOf, Utf8.toNat_toUInt8 _ (by omega)] at hb
    omega
  simp (disch := decide) [factorOf?, hne]

/-- The last byte is a suffix exactly where the last character is. -/
theorem bind_getLast?_ofChars (text : List Char) :
    (Utf8.ofChars text).getLast?.bind factorOf? = text.getLast?.bind ByteSize.factor? := by
  rcases List.eq_nil_or_concat' text with rfl | ⟨front, c, rfl⟩
  · rfl
  · have hbytes : Utf8.ofChars (front ++ [c]) = Utf8.ofChars front ++ Utf8.ofScalar c.toNat := by
      simp [Utf8.ofChars]
    rw [hbytes, List.getLast?_append_of_ne_nil _ (Utf8.ofScalar_ne_nil _), List.getLast?_concat,
      Option.bind_some]
    by_cases hc : c.toNat < 0x80
    · rw [Utf8.ofScalar, if_pos hc]
      exact factorOf?_byteOf hc
    · have hnone : ByteSize.factor? c = none := by
        rw [Option.eq_none_iff_forall_not_mem]
        intro factor hfactor
        exact hc (ByteSize.factor?_eq_some_iff.mp hfactor).bounds.2.1
      have hscalar : Text.IsScalar c.toNat := Utf8.isScalar_of_mem_map_toNat [c] _ (by simp)
      cases hlast : (Utf8.ofScalar c.toNat).getLast? with
      | none => exact absurd (List.getLast?_eq_none_iff.mp hlast) (Utf8.ofScalar_ne_nil _)
      | some b =>
        rw [Option.bind_some, hnone]
        exact factorOf?_eq_none (Utf8.le_toNat_of_mem_ofScalar (Nat.le_of_not_lt hc)
          (by unfold Text.IsScalar at hscalar; omega) (List.mem_of_getLast? hlast))

/-- The suffix that is cut off is one byte, and what stands in front of it ends where a character does. -/
theorem splitSuffix_eq (text : List Char) :
    (splitSuffix text : Guarded ε (List Char × Nat)) = pure (ByteSize.splitSuffix text) := by
  rw [splitSuffix, bind_getLast?_ofChars, ByteSize.splitSuffix]
  cases hfactor : text.getLast?.bind ByteSize.factor? with
  | none => rfl
  | some factor =>
    rcases List.eq_nil_or_concat' text with rfl | ⟨front, c, rfl⟩
    · cases hfactor
    · rw [List.getLast?_concat, Option.bind_some] at hfactor
      have hascii := (ByteSize.factor?_eq_some_iff.mp hfactor).bounds.2.1
      have hlength : (Utf8.ofChars (front ++ [c])).length = (Utf8.ofChars front).length + 1 := by
        simp [Utf8.ofChars, Utf8.ofScalar, hascii]
      simp only [hlength]
      rw [sub_eq (Nat.le_add_left 1 _), pure_bind, Nat.add_sub_cancel, charsTo_append, pure_bind,
        List.dropLast_concat]

theorem readSize_eq (s : List Char) : readSize s = of (ByteSize.read s) := by
  rw [readSize, ByteSize.read]
  by_cases hempty : (trim s).isEmpty
  · simp only [hempty, if_true]
    rfl
  · simp only [hempty, splitSuffix_eq, pure_bind, Bool.false_eq_true, if_false]
    cases Decimal.read (trim (ByteSize.splitSuffix (trim s)).1) with
    | error fault => rfl
    | ok n =>
      dsimp only
      split
      · rename_i hword
        exact word_eq hword
      · rfl

/-- Reading a size comes to no fault, whatever the text. The sizes that it accepts are those of the grammar
that a word holds, each with its number, and everything else is an error. -/
theorem readSize_grammar (s : List Char) :
    readSize s = of (ByteSize.read s) ∧
    (∀ v, ByteSize.read s = .ok v ↔ ByteSize.Denotes s v) ∧
    ((∃ fault, ByteSize.read s = .error fault) ↔ ∀ v, ¬ ByteSize.Denotes s v) := by
  refine ⟨readSize_eq s, fun v => ByteSize.read_eq_ok_iff, ?_⟩
  simp only [← ByteSize.read_eq_ok_iff]
  cases ByteSize.read s with
  | error fault => simp
  | ok v => simp

/-- A blank of two bytes may stand in front of a suffix. -/
example : readSize [' ', '+', '2', '\u00A0', 'k'] = pure 2048 := by cbv

end Guarded
end EditHistory
