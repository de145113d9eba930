import EditHistory.Transport.Compressor
import EditHistory.Proofs.Transport.Numbers

/-! Unpacking undoes packing. The tokens in front of a position rebuild the bytes up to there: a copy
repeats bytes that were compared when it was chosen, and blocks follow each other without a gap. -/
namespace EditHistory
namespace Deflate

open Inflate

variable {bytes : Array UInt8} {i j : Nat}

theorem agreement_spec (bytes : Array UInt8) (i j limit : Nat) :
    agreement bytes i j limit ≤ limit ∧ ∀ k < agreement bytes i j limit,
      j + k < bytes.size ∧ bytes.getD (i + k) 0 = bytes.getD (j + k) 0 := by
  induction limit generalizing i j with
  | zero => simp [agreement]
  | succ limit ih =>
    rw [agreement]
    split
    · rename_i h
      obtain ⟨hi, hj⟩ := h
      split
      · rename_i heq
        obtain ⟨hle, hagree⟩ := ih (i + 1) (j + 1)
        refine ⟨Nat.succ_le_succ hle, ?_⟩
        intro k hk
        cases k with
        | zero =>
          refine ⟨hj, ?_⟩
          simpa [hi, hj] using heq
        | succ k =>
          have hk' := hagree k (Nat.lt_of_succ_lt_succ hk)
          have hik : i + 1 + k = i + (k + 1) := by omega
          have hjk : j + 1 + k = j + (k + 1) := by omega
          rwa [hik, hjk] at hk'
      · simp
    · simp

/-- The candidate for a copy, if there is one, stands close enough before `j` and agrees with what
stands there. -/
structure Copies (bytes : Array UInt8) (j length origin : Nat) : Prop where
  lt : origin < j
  distance_le : j - origin ≤ maxDistance
  length_le : length ≤ maxCopy
  agrees : ∀ k < length, j + k < bytes.size ∧ bytes.getD (origin + k) 0 = bytes.getD (j + k) 0

theorem longestCopy_spec (bytes : Array UInt8) (j : Nat) (origins : List Nat) :
    (longestCopy bytes j origins).1 = 0 ∨
      Copies bytes j (longestCopy bytes j origins).1 (longestCopy bytes j origins).2 := by
  have hfold (best : Nat × Nat) (hbest : best.1 = 0 ∨ Copies bytes j best.1 best.2) :
      let found := origins.foldl (fun best i =>
        let length := agreement bytes i j maxCopy
        if i < j && j - i ≤ maxDistance && best.1 < length then (length, i) else best) best
      found.1 = 0 ∨ Copies bytes j found.1 found.2 := by
    induction origins generalizing best with
    | nil => exact hbest
    | cons i origins ih =>
      refine ih _ ?_
      dsimp only
      split
      · rename_i h
        simp only [Bool.and_eq_true, decide_eq_true_eq] at h
        obtain ⟨hle, hagree⟩ := agreement_spec bytes i j maxCopy
        exact .inr ⟨h.1.1, h.1.2, hle, hagree⟩
      · exact hbest
  exact hfold (0, 0) (.inl rfl)

theorem push_extract (h : j < bytes.size) :
    (bytes.extract 0 j).push bytes[j] = bytes.extract 0 (j + 1) := by
  simp [Array.push_extract_getElem]

/-- A copy of bytes that agree continues the bytes. -/
theorem copy_extract {distance n : Nat} (hpos : 0 < distance) (hle : distance ≤ j)
    (hagree : ∀ k < n, j + k < bytes.size ∧
      bytes.getD (j - distance + k) 0 = bytes.getD (j + k) 0) :
    copy (bytes.extract 0 j) distance n = bytes.extract 0 (j + n) := by
  induction n generalizing j with
  | zero => rfl
  | succ n ih =>
    obtain ⟨hj, heq⟩ := hagree 0 (Nat.succ_pos n)
    simp only [Nat.add_zero] at hj heq
    have hsize : (bytes.extract 0 j).size = j := by
      simp [Nat.min_eq_left (Nat.le_of_lt hj)]
    have hbyte : (bytes.extract 0 j).getD (j - distance) 0 = bytes[j] := by
      have hlt : j - distance < j := by omega
      have hin : j - distance < min j bytes.size := by omega
      have hlt' : j - distance < bytes.size := by omega
      have hearlier : (bytes.extract 0 j).getD (j - distance) 0 = bytes.getD (j - distance) 0 := by
        simp [Array.getD_eq_getD_getElem?, hin, hlt']
      rw [hearlier, heq]
      simp [hj]
    rw [copy, hsize, hbyte, push_extract hj, ih (by omega) fun k hk => ?_]
    · congr 1
      omega
    · have hk' := hagree (k + 1) (Nat.succ_lt_succ hk)
      have hleft : j + 1 - distance + k = j - distance + (k + 1) := by omega
      have hright : j + 1 + k = j + (k + 1) := by omega
      rwa [hleft, hright]

theorem readSymbols_literal (b : UInt8) (fuel : Nat) (rest : List Bool) (output : Array UInt8) :
    readSymbols fixedCodes (fuel + 1) (Token.bits fixedCodes (.literal b) ++ rest) output =
      readSymbols fixedCodes fuel rest (output.push b) := by
  have hlt : b.toNat < endOfBlock := b.toNat_lt
  have hword := read_wordOf (isSome_path?_literals (Nat.lt_trans hlt (by decide))) rest
  simp only [readSymbols, Token.bits, hword, bind, Except.bind, if_pos hlt]
  simp

theorem readSymbols_end (fuel : Nat) (rest : List Bool) (output : Array UInt8) :
    readSymbols fixedCodes (fuel + 1) (wordOf fixedCodes.literals endOfBlock ++ rest) output =
      .ok (output, rest) := by
  have hword := read_wordOf (isSome_path?_literals (by decide : endOfBlock < 288)) rest
  simp only [readSymbols, hword, bind, Except.bind]
  rfl

theorem readSymbols_copy {length distance : Nat} {output : Array UInt8} (hlength : 3 ≤ length)
    (hlength' : length ≤ maxCopy) (hpos : 0 < distance) (hdistance : distance ≤ maxDistance)
    (hsize : distance ≤ output.size) (fuel : Nat) (rest : List Bool) :
    readSymbols fixedCodes (fuel + 1) (Token.bits fixedCodes (.copy length distance) ++ rest) output =
      readSymbols fixedCodes fuel rest (copy output distance length) := by
  have hlength₀ : ∀ p ∈ lengthTable.head?, p.1 ≤ length := by
    simpa [lengthTable] using hlength
  have hdistance₀ : ∀ p ∈ distanceTable.head?, p.1 ≤ distance := by
    simpa [distanceTable] using Nat.succ_le_of_lt hpos
  obtain ⟨slot, extra, width, hslot, hlt, hread⟩ :=
    readExtra_slotOf covers_lengthTable hlength₀ (Nat.lt_succ_of_le hlength')
  obtain ⟨slot', extra', width', hslot', hlt', hread'⟩ :=
    readExtra_slotOf covers_distanceTable hdistance₀ (Nat.lt_succ_of_le hdistance)
  have hslots : slot < 29 := hlt
  have hslots' : slot' < 30 := hlt'
  have hword (rest : List Bool) := read_wordOf
    (isSome_path?_literals (by omega : 257 + slot < 288)) rest
  have hword' (rest : List Bool) := read_wordOf
    (isSome_path?_distances (by omega : slot' < 32)) rest
  have hsymbol : ¬ 257 + slot < endOfBlock := by
    rw [endOfBlock]
    omega
  have hsymbol' : ¬ 257 + slot = endOfBlock := by
    rw [endOfBlock]
    omega
  simp only [Token.bits, hslot, hslot', List.append_assoc, readSymbols, hword, bind, Except.bind,
    if_neg hsymbol, if_neg hsymbol', Nat.add_sub_cancel_left, hread, hword', hread',
    if_neg (Nat.not_lt.mpr hsize)]

theorem length_bits_literal_pos (b : UInt8) : 0 < ((Token.literal b).bits fixedCodes).length :=
  length_wordOf_literals_pos (Nat.lt_trans b.toNat_lt (by decide))

theorem length_bits_copy_pos {length : Nat} (hlength : 3 ≤ length) (hlength' : length ≤ maxCopy)
    (distance : Nat) : 0 < ((Token.copy length distance).bits fixedCodes).length := by
  have hlength₀ : ∀ p ∈ lengthTable.head?, p.1 ≤ length := by
    simpa [lengthTable] using hlength
  obtain ⟨slot, extra, width, hslot, hlt, -⟩ :=
    readExtra_slotOf covers_lengthTable hlength₀ (Nat.lt_succ_of_le hlength')
  have hslots : slot < 29 := hlt
  have hword := length_wordOf_literals_pos (by omega : 257 + slot < 288)
  simp only [Token.bits, hslot, List.length_append]
  omega

/-- The tokens from a position on rebuild what stands there. -/
theorem readSymbols_tokensFrom (seen : Seen) {fuel : Nat} (hj : j ≤ bytes.size) (rest : List Bool)
    (hfuel : ((tokensFrom bytes seen j).flatMap (Token.bits fixedCodes)).length < fuel) :
    readSymbols fixedCodes fuel ((tokensFrom bytes seen j).flatMap (Token.bits fixedCodes) ++
      (wordOf fixedCodes.literals endOfBlock ++ rest)) (bytes.extract 0 j) = .ok (bytes, rest) := by
  fun_induction tokensFrom bytes seen j generalizing fuel with
  | case1 seen j hlt length i hlong hmany ih =>
    have hcopies : Copies bytes j length i := by
      have hspec := longestCopy_spec bytes j (seen.getD (key bytes j) [])
      rw [hlong] at hspec
      exact hspec.resolve_left (by dsimp only; omega)
    have hbits := length_bits_copy_pos hmany hcopies.length_le (j - i)
    have hin := (hcopies.agrees (length - 1) (by omega)).1
    rw [List.flatMap_cons, List.length_append] at hfuel
    rw [List.flatMap_cons, List.append_assoc]
    cases fuel with
    | zero => omega
    | succ fuel =>
      have hilt := hcopies.lt
      have hsize : j - i ≤ (bytes.extract 0 j).size := by
        simp only [Array.size_extract]
        omega
      have hcopy : copy (bytes.extract 0 j) (j - i) length = bytes.extract 0 (j + length) := by
        refine copy_extract (by omega) (by omega) ?_
        rw [Nat.sub_sub_self (Nat.le_of_lt hilt)]
        exact hcopies.agrees
      rw [readSymbols_copy hmany hcopies.length_le (by omega) hcopies.distance_le hsize, hcopy]
      exact ih (by omega) (by omega)
  | case2 seen j hlt length i hlong hfew ih =>
    rw [List.flatMap_cons, List.length_append] at hfuel
    rw [List.flatMap_cons, List.append_assoc]
    cases fuel with
    | zero => omega
    | succ fuel =>
      rw [readSymbols_literal, push_extract hlt]
      refine ih hlt (Nat.lt_of_succ_lt_succ (Nat.lt_of_le_of_lt ?_ hfuel))
      exact Nat.succ_le_of_lt (Nat.lt_add_of_pos_left (length_bits_literal_pos _))
  | case3 seen j hge =>
    obtain rfl : j = bytes.size := by omega
    cases fuel with
    | zero => omega
    | succ fuel =>
      rw [List.flatMap_nil, List.nil_append, readSymbols_end]
      simp

/-- A block with the fixed codes is read back. -/
theorem inflate_fixedBlock (bytes : Bytes) : inflate (fixedBlock bytes) = .ok bytes := by
  obtain ⟨n, hbits⟩ := bitsOf_packBits ([true, true, false] ++
    (tokens bytes).flatMap (Token.bits fixedCodes) ++ wordOf fixedCodes.literals endOfBlock)
  obtain ⟨stream, hstream⟩ : ∃ stream, stream = (tokens bytes).flatMap (Token.bits fixedCodes) ++
    (wordOf fixedCodes.literals endOfBlock ++ List.replicate n false) := ⟨_, rfl⟩
  have hblock : bitsOf (fixedBlock bytes) = true :: true :: false :: stream := by
    rw [fixedBlock, hbits, hstream]
    simp
  have hfuel : ((tokens bytes).flatMap (Token.bits fixedCodes)).length < stream.length + 1 := by
    rw [hstream, List.length_append]
    exact Nat.lt_succ_of_le (Nat.le_add_right ..)
  have hsymbols := readSymbols_tokensFrom ∅ (Nat.zero_le _) (List.replicate n false) hfuel
  rw [← tokens, ← hstream, Array.extract_zero] at hsymbols
  have hlast : readNumber (true :: true :: false :: stream) 1 = .ok (1, true :: false :: stream) :=
    readNumber_append [true] _
  have htype : readNumber (true :: false :: stream) 2 = .ok (1, stream) :=
    readNumber_append [true, false] _
  simp only [inflate, hblock, readBlocks, hlast, htype, hsymbols, bind, Except.bind]
  simp [pure, Except.pure]

theorem bitsOf_storedBlock (last : Bool) (bytes : Bytes) : bitsOf (storedBlock last bytes) =
    last :: false :: false :: (List.replicate 5 false ++
      (bitsOfByte (bytes.length % 256).toUInt8 ++ (bitsOfByte (bytes.length / 256).toUInt8 ++
        (bitsOfByte (255 - bytes.length % 256).toUInt8 ++
          (bitsOfByte (255 - bytes.length / 256).toUInt8 ++ bitsOf bytes))))) := by
  have hflag : bitsOfByte last.toNat.toUInt8 = last :: List.replicate 7 false := by
    cases last <;> rfl
  simp only [storedBlock, bitsOf_append, bitsOf_cons, hflag, List.append_assoc]
  rfl

theorem readStored_storedBlock {bytes : Bytes} (h : bytes.length ≤ maxStored) {rest : List Bool}
    (hrest : rest.length % 8 = 0) (output : Array UInt8) :
    readStored (List.replicate 5 false ++
      (bitsOfByte (bytes.length % 256).toUInt8 ++ (bitsOfByte (bytes.length / 256).toUInt8 ++
        (bitsOfByte (255 - bytes.length % 256).toUInt8 ++
          (bitsOfByte (255 - bytes.length / 256).toUInt8 ++ (bitsOf bytes ++ rest)))))) output =
      .ok (output ++ bytes, rest) := by
  have hbyte {value : Nat} (hlt : value < 256) : value.toUInt8.toNat = value :=
    UInt8.toNat_ofNat_of_lt' hlt
  have hmax : bytes.length ≤ 65535 := h
  have hlow := hbyte (by omega : bytes.length % 256 < 256)
  have hhigh := hbyte (by omega : bytes.length / 256 < 256)
  have hlow' := hbyte (by omega : 255 - bytes.length % 256 < 256)
  have hhigh' := hbyte (by omega : 255 - bytes.length / 256 < 256)
  have hlength : bytes.length % 256 + bytes.length / 256 * 256 = bytes.length := by omega
  have hsum : bytes.length + (255 - bytes.length % 256 + (255 - bytes.length / 256) * 256) =
      0xFFFF := by omega
  have hdrop (tail : List Bool) (htail : tail.length % 8 = 0) :
      (List.replicate 5 false ++ tail).drop ((List.replicate 5 false ++ tail).length % 8) = tail := by
    have hmod : (List.replicate 5 false ++ tail).length % 8 = (List.replicate 5 false).length := by
      rw [List.length_append, List.length_replicate]
      omega
    rw [hmod, List.drop_left]
  rw [readStored, hdrop _ (by simp only [List.length_append, length_bitsOfByte, length_bitsOf]; omega)]
  simp only [readNumber_two, hlow, hhigh, hlow', hhigh', hlength, readBytes_bitsOf, bind, Except.bind,
    hsum]
  rfl

/-- A stored block is read back, and unless it is the last one reading goes on behind it. -/
theorem readBlocks_storedBlock (last : Bool) {bytes : Bytes} (h : bytes.length ≤ maxStored)
    (fuel : Nat) (rest : List Bool) (hrest : rest.length % 8 = 0) (output : Array UInt8) :
    readBlocks (fuel + 1) (bitsOf (storedBlock last bytes) ++ rest) output =
      if last then .ok (output ++ bytes) else readBlocks fuel rest (output ++ bytes) := by
  have hstored := readStored_storedBlock h hrest output
  have hlast (tail : List Bool) : readNumber (last :: tail) 1 = .ok (last.toNat, tail) :=
    readNumber_append [last] tail
  have htype (tail : List Bool) : readNumber (false :: false :: tail) 2 = .ok (0, tail) :=
    readNumber_append [false, false] tail
  simp only [bitsOf_storedBlock, List.cons_append, List.append_assoc, readBlocks, hlast, htype,
    hstored, bind, Except.bind]
  cases last <;> rfl

theorem readBlocks_storedBlocks {bytes : Bytes} {fuel : Nat}
    (hfuel : (bitsOf (storedBlocks bytes)).length < fuel) (output : Array UInt8) :
    readBlocks fuel (bitsOf (storedBlocks bytes)) output = .ok (output ++ bytes) := by
  fun_induction storedBlocks bytes generalizing fuel output with
  | case1 bytes h =>
    cases fuel with
    | zero => omega
    | succ fuel =>
      have hread := readBlocks_storedBlock true h fuel [] rfl output
      rwa [List.append_nil] at hread
  | case2 bytes h ih =>
    cases fuel with
    | zero => omega
    | succ fuel =>
      have hlen : (bytes.take maxStored).length ≤ maxStored := by
        rw [List.length_take]
        exact Nat.min_le_left ..
      have hpos : 0 < (bitsOf (storedBlock false (bytes.take maxStored))).length := by
        rw [bitsOf_storedBlock]
        exact Nat.succ_pos _
      rw [bitsOf_append, List.length_append] at hfuel
      have hless : (bitsOf (storedBlocks (bytes.drop maxStored))).length < fuel := by omega
      have hrest := ih hless (output ++ bytes.take maxStored)
      have hread := readBlocks_storedBlock false hlen fuel
        (bitsOf (storedBlocks (bytes.drop maxStored))) (by rw [length_bitsOf]; omega) output
      have hjoin : output ++ bytes.take maxStored ++ bytes.drop maxStored = output ++ bytes := by
        apply Array.ext'
        simp
      rw [bitsOf_append, hread, if_neg Bool.false_ne_true, hrest, hjoin]

/-- A deflate stream is unpacked to the bytes that were packed. -/
theorem inflate_deflate (level : Nat) (bytes : Bytes) : inflate (deflate level bytes) = .ok bytes := by
  rw [deflate]
  split
  · simp only [inflate, readBlocks_storedBlocks (Nat.lt_succ_self _), bind, Except.bind]
    simp [pure, Except.pure]
  · exact inflate_fixedBlock bytes

end Deflate
end EditHistory
