import EditHistory.Transport.Deflate

/-! Numbers in a deflate stream, least significant bit first, and the words and slots that stand for
symbols: what one side writes the other side reads, whatever comes behind it. -/
namespace EditHistory
namespace Deflate

open Inflate

/-- The number that bits stand for, the least significant one first. -/
def numberOf (bits : List Bool) : Nat := bits.foldr (fun (b : Bool) n => b.toNat + 2 * n) 0

theorem numberOf_cons (b : Bool) (bits : List Bool) :
    numberOf (b :: bits) = b.toNat + 2 * numberOf bits := rfl

theorem numberOf_lt (bits : List Bool) : numberOf bits < 1 <<< bits.length := by
  induction bits with
  | nil => exact Nat.one_pos
  | cons b bits ih =>
    have hb : b.toNat ≤ 1 := Bool.toNat_le b
    rw [List.length_cons, Nat.shiftLeft_succ, numberOf_cons]
    omega

theorem testBit_numberOf (bits : List Bool) (i : Nat) :
    (numberOf bits).testBit i = bits.getD i false := by
  induction bits generalizing i with
  | nil => simp [numberOf]
  | cons b bits ih =>
    rw [numberOf_cons]
    cases i with
    | zero => cases b <;> simp
    | succ i =>
      have hhalf : (b.toNat + 2 * numberOf bits) / 2 = numberOf bits := by
        have hb : b.toNat ≤ 1 := Bool.toNat_le b
        omega
      rw [Nat.testBit_succ, hhalf, ih, List.getD_cons_succ]

theorem readNumber_append (bits rest : List Bool) :
    readNumber (bits ++ rest) bits.length = .ok (numberOf bits, rest) := by
  induction bits with
  | nil => simp [readNumber, numberOf]
  | cons b bits ih =>
    rw [List.cons_append, List.length_cons, readNumber, ih]
    rfl

@[simp] theorem length_numberBits (value width : Nat) : (numberBits value width).length = width := by
  induction width generalizing value with
  | zero => rfl
  | succ n ih => rw [numberBits, List.length_cons, ih]

theorem numberOf_numberBits {value width : Nat} (h : value < 1 <<< width) :
    numberOf (numberBits value width) = value := by
  induction width generalizing value with
  | zero =>
    have hzero : value = 0 := Nat.lt_one_iff.mp h
    subst hzero
    rfl
  | succ n ih =>
    have hlt : value / 2 < 1 <<< n := by
      rw [Nat.shiftLeft_succ] at h
      omega
    have hlow : (value.testBit 0).toNat = value / 2 ^ 0 % 2 := Nat.toNat_testBit value 0
    rw [numberBits, numberOf_cons, ih hlt, hlow]
    omega

theorem readNumber_numberBits {value width : Nat} (h : value < 1 <<< width) (rest : List Bool) :
    readNumber (numberBits value width ++ rest) width = .ok (value, rest) := by
  have hread := readNumber_append (numberBits value width) rest
  rwa [length_numberBits, numberOf_numberBits h] at hread

/-- Bits that become one byte come out of it again, with zeros behind them. -/
theorem bitsOfByte_byteOf {bits : List Bool} (h : bits.length ≤ 8) :
    bitsOfByte (packBits.byteOf bits) = bits ++ List.replicate (8 - bits.length) false := by
  have hlt : numberOf bits < 256 := by
    have hlt := numberOf_lt bits
    rw [Nat.one_shiftLeft] at hlt
    exact Nat.lt_of_lt_of_le hlt (Nat.pow_le_pow_right (by decide) h)
  have hbyte : (packBits.byteOf bits).toNat = numberOf bits := UInt8.toNat_ofNat_of_lt' hlt
  refine List.ext_getElem (by simp [bitsOfByte]; omega) ?_
  intro i hi hi'
  simp only [bitsOfByte, List.getElem_map, List.getElem_range, hbyte, testBit_numberOf]
  by_cases hin : i < bits.length
  · simp [List.getElem_append_left hin, hin]
  · simp [List.getElem_append_right (Nat.le_of_not_lt hin), hin]

theorem bitsOf_cons (b : UInt8) (bytes : Bytes) : bitsOf (b :: bytes) = bitsOfByte b ++ bitsOf bytes :=
  rfl

theorem bitsOf_append (xs ys : Bytes) : bitsOf (xs ++ ys) = bitsOf xs ++ bitsOf ys :=
  List.flatMap_append

@[simp] theorem length_bitsOfByte (b : UInt8) : (bitsOfByte b).length = 8 := by
  simp [bitsOfByte]

theorem length_bitsOf (bytes : Bytes) : (bitsOf bytes).length = bytes.length * 8 := by
  induction bytes with
  | nil => rfl
  | cons b bytes ih =>
    rw [bitsOf_cons, List.length_append, length_bitsOfByte, ih, List.length_cons]
    omega

/-- The bits of packed bits are these bits, filled up with zeros. -/
theorem bitsOf_packBits (bits : List Bool) :
    ∃ n, bitsOf (packBits bits) = bits ++ List.replicate n false := by
  fun_induction packBits bits with
  | case1 => exact ⟨0, rfl⟩
  | case2 b₀ b₁ b₂ b₃ b₄ b₅ b₆ b₇ rest ih =>
    obtain ⟨n, hn⟩ := ih
    refine ⟨n, ?_⟩
    have hbyte : bitsOfByte (packBits.byteOf [b₀, b₁, b₂, b₃, b₄, b₅, b₆, b₇]) =
        [b₀, b₁, b₂, b₃, b₄, b₅, b₆, b₇] := bitsOfByte_byteOf (Nat.le_refl 8)
    rw [bitsOf_cons, hbyte, hn]
    rfl
  | case3 last hnil hlong =>
    have hlen : last.length ≤ 8 := by
      match last, hlong with
      | [], _ | [_], _ | [_, _], _ | [_, _, _], _ | [_, _, _, _], _ | [_, _, _, _, _], _
      | [_, _, _, _, _, _], _ | [_, _, _, _, _, _, _], _ => simp
      | b₀ :: b₁ :: b₂ :: b₃ :: b₄ :: b₅ :: b₆ :: b₇ :: rest, hlong =>
        exact (hlong b₀ b₁ b₂ b₃ b₄ b₅ b₆ b₇ rest rfl).elim
    exact ⟨8 - last.length, (List.append_nil _).trans (bitsOfByte_byteOf hlen)⟩

theorem numberOf_bitsOfByte (b : UInt8) : numberOf (bitsOfByte b) = b.toNat := by
  refine Nat.eq_of_testBit_eq ?_
  intro i
  rw [testBit_numberOf]
  by_cases h : i < 8
  · simp [bitsOfByte, h]
  · have hlt : b.toNat < 2 ^ i :=
      Nat.lt_of_lt_of_le b.toNat_lt (Nat.pow_le_pow_right (by decide) (Nat.le_of_not_lt h))
    rw [Nat.testBit_lt_two_pow hlt]
    simp [bitsOfByte, h]

theorem numberOf_append (xs ys : List Bool) :
    numberOf (xs ++ ys) = numberOf xs + numberOf ys <<< xs.length := by
  induction xs with
  | nil => simp [numberOf]
  | cons b xs ih =>
    rw [List.cons_append, numberOf_cons, numberOf_cons, ih, List.length_cons, Nat.shiftLeft_succ]
    omega

theorem readNumber_byte (b : UInt8) (rest : List Bool) :
    readNumber (bitsOfByte b ++ rest) 8 = .ok (b.toNat, rest) := by
  have hread := readNumber_append (bitsOfByte b) rest
  rwa [length_bitsOfByte, numberOf_bitsOfByte] at hread

/-- Two bytes are a number, the low byte first. -/
theorem readNumber_two (low high : UInt8) (rest : List Bool) :
    readNumber (bitsOfByte low ++ (bitsOfByte high ++ rest)) 16 =
      .ok (low.toNat + high.toNat * 256, rest) := by
  have hread := readNumber_append (bitsOfByte low ++ bitsOfByte high) rest
  rwa [numberOf_append, List.length_append, length_bitsOfByte, length_bitsOfByte,
    numberOf_bitsOfByte, numberOf_bitsOfByte, List.append_assoc, Nat.shiftLeft_eq] at hread

theorem readBytes_bitsOf (bytes : Bytes) (rest : List Bool) :
    readBytes (bitsOf bytes ++ rest) bytes.length = .ok (bytes, rest) := by
  induction bytes with
  | nil => rfl
  | cons b bytes ih =>
    rw [bitsOf_cons, List.append_assoc, List.length_cons, readBytes, readNumber_byte]
    simp only [bind, Except.bind, ih]
    simp [pure, Except.pure]

/-- The entries of a table reach one to the next and the last one to `top`. -/
def Covers (top : Nat) : List (Nat × Nat) → Prop
  | [] => False
  | [p] => top ≤ p.1 + 1 <<< p.2
  | p :: q :: rest => q.1 ≤ p.1 + 1 <<< p.2 ∧ Covers top (q :: rest)

theorem exists_slot {top value : Nat} {p : Nat × Nat} {table : List (Nat × Nat)}
    (h : Covers top (p :: table)) (hp : p.1 ≤ value) (htop : value < top) :
    ∃ slot least width, ((p :: table).takeWhile fun p => p.1 ≤ value).length = slot + 1 ∧
      (p :: table)[slot]? = some (least, width) ∧ least ≤ value ∧ value < least + 1 <<< width := by
  induction table generalizing p with
  | nil => exact ⟨0, p.1, p.2, by simp [hp], rfl, hp, Nat.lt_of_lt_of_le htop h⟩
  | cons q rest ih =>
    obtain ⟨hreach, hrest⟩ := h
    by_cases hq : q.1 ≤ value
    · obtain ⟨slot, least, width, hcount, hget, hle, hlt⟩ := ih hrest hq
      refine ⟨slot + 1, least, width, ?_, hget, hle, hlt⟩
      rw [List.takeWhile_cons_of_pos (by simpa using hp), List.length_cons, hcount]
    · refine ⟨0, p.1, p.2, ?_, rfl, hp, by omega⟩
      simp [hp, hq]

/-- A value that a table covers is read back from its slot and what is left over. -/
theorem readExtra_slotOf {top value : Nat} {table : List (Nat × Nat)} (h : Covers top table)
    (hleast : ∀ p ∈ table.head?, p.1 ≤ value) (htop : value < top) :
    ∃ slot extra width, slotOf table value = (slot, extra, width) ∧ slot < table.length ∧
      ∀ rest, readExtra table slot (numberBits extra width ++ rest) = .ok (value, rest) := by
  cases table with
  | nil => exact h.elim
  | cons p table =>
    obtain ⟨slot, least, width, hcount, hget, hle, hlt⟩ := exists_slot h (hleast p rfl) htop
    refine ⟨slot, value - least, width, ?_, (List.getElem?_eq_some_iff.mp hget).1, fun rest => ?_⟩
    · rw [slotOf, hcount, Nat.add_sub_cancel, hget]
    · have hextra : value - least < 1 <<< width := by omega
      simp only [readExtra, hget, readNumber_numberBits hextra, bind, Except.bind]
      rw [Nat.add_sub_cancel' hle]
      rfl

theorem covers_lengthTable : Covers 259 lengthTable := by
  simp [Covers, lengthTable]

theorem covers_distanceTable : Covers 32769 distanceTable := by
  simp [Covers, distanceTable]

open Huffman (Tree)

theorem read_wordOf {t : Tree} {symbol : Nat} (h : (t.path? symbol).isSome) (rest : List Bool) :
    t.read (wordOf t symbol ++ rest) = .ok (symbol, rest) := by
  obtain ⟨bits, hbits⟩ := Option.isSome_iff_exists.mp h
  rw [wordOf, hbits]
  exact Tree.read_path_append hbits rest

theorem length_wordOf_root_pos {lengths : List Nat} {symbol : Nat}
    (h : ((Huffman.root lengths).path? symbol).isSome) :
    0 < (wordOf (Huffman.root lengths) symbol).length := by
  have hnode : ∃ zero one, Huffman.root lengths = .node zero one := by
    rw [Huffman.root]
    split <;> exact ⟨_, _, rfl⟩
  obtain ⟨zero, one, hroot⟩ := hnode
  have hread := read_wordOf h []
  rw [hroot] at hread ⊢
  cases hword : wordOf (.node zero one) symbol with
  | nil =>
    rw [hword] at hread
    cases hread
  | cons b word => exact Nat.succ_pos _

/-- The symbols of a code from left to right. -/
def leaves : Tree → List Nat
  | .empty => []
  | .leaf symbol => [symbol]
  | .node zero one => leaves zero ++ leaves one

theorem isSome_path?_of_mem_leaves {t : Tree} {symbol : Nat} (h : symbol ∈ leaves t) :
    (t.path? symbol).isSome := by
  induction t with
  | empty => simp [leaves] at h
  | leaf s =>
    have hs : symbol = s := by simpa [leaves] using h
    simp [Tree.path?, hs]
  | node zero one ihz iho =>
    rw [Tree.path?]
    split
    · rfl
    · rename_i hzero
      rcases List.mem_append.mp h with h | h
      · have hsome := ihz h
        simp [hzero] at hsome
      · simpa using iho h

/-- The fixed code for literals and lengths has its shortest words for the end of a block and for
short copies. -/
theorem leaves_literals : leaves fixedCodes.literals =
    List.range' 256 24 ++ List.range' 0 144 ++ List.range' 280 8 ++ List.range' 144 112 := by
  decide +kernel

theorem leaves_distances : leaves fixedCodes.distances = List.range' 0 32 := by
  decide +kernel

theorem isSome_path?_literals {symbol : Nat} (h : symbol < 288) :
    (fixedCodes.literals.path? symbol).isSome := by
  apply isSome_path?_of_mem_leaves
  simp only [leaves_literals, List.mem_append, List.mem_range'_1]
  omega

theorem length_wordOf_literals_pos {symbol : Nat} (h : symbol < 288) :
    0 < (wordOf fixedCodes.literals symbol).length := by
  have hroot : fixedCodes.literals = Huffman.root fixedLiteralLengths := rfl
  have hsome := isSome_path?_literals h
  rw [hroot] at hsome ⊢
  exact length_wordOf_root_pos hsome

theorem isSome_path?_distances {symbol : Nat} (h : symbol < 32) :
    (fixedCodes.distances.path? symbol).isSome := by
  apply isSome_path?_of_mem_leaves
  simp only [leaves_distances, List.mem_range'_1]
  omega

end Deflate
end EditHistory
