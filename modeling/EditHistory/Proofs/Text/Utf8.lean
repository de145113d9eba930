import EditHistory.Proofs.Text.Charset
import EditHistory.Proofs.Result

/-! What the decoder of UTF-8 reads is made of scalar values, so no surrogate in it is unpaired, and
the bytes that were read are the only ones for it; the same holds for every charset. And characters
are told by their bytes. -/
namespace EditHistory
namespace Utf8

variable {a b c d : UInt8}

theorem bounds_of_lead {low high : UInt8} (h : (low ≤ a && a ≤ high) = true) :
    low.toNat ≤ a.toNat ∧ a.toNat ≤ high.toNat := by
  simpa [UInt8.le_iff_toNat_le] using h

theorem isScalar_twoValue (ha : 0xC2 ≤ a.toNat ∧ a.toNat ≤ 0xDF) (hb : isTail b) :
    Text.IsScalar (twoValue a b) := by
  rw [isTail_iff] at hb
  unfold Text.IsScalar twoValue
  omega

/-- The second of three bytes keeps surrogates out. -/
theorem isScalar_threeValue (ha : 0xE0 ≤ a.toNat ∧ a.toNat ≤ 0xEF) (hb : isSecondOfThree a b)
    (hc : isTail c) : Text.IsScalar (threeValue a b c) := by
  rw [isSecondOfThree_iff] at hb
  rw [isTail_iff] at hc
  unfold Text.IsScalar threeValue
  split at hb <;> split at hb <;> omega

theorem isScalar_fourValue (ha : 0xF0 ≤ a.toNat ∧ a.toNat ≤ 0xF4) (hb : isSecondOfFour a b)
    (hc : isTail c) (hd : isTail d) : Text.IsScalar (fourValue a b c d) := by
  rw [isSecondOfFour_iff] at hb
  rw [isTail_iff] at hc hd
  unfold Text.IsScalar fourValue
  split at hb <;> split at hb <;> omega

theorem ofScalar_of_lt (ha : a.toNat < 0x80) : ofScalar a.toNat = [a] := by
  rw [ofScalar, if_pos ha]
  simp

theorem ofScalar_twoValue (ha : 0xC2 ≤ a.toNat ∧ a.toNat ≤ 0xDF) (hb : isTail b) :
    ofScalar (twoValue a b) = [a, b] := by
  rw [isTail_iff] at hb
  have hlead : 0xC0 + twoValue a b / 0x40 = a.toNat := by
    unfold twoValue
    omega
  have htail : 0x80 + twoValue a b % 0x40 = b.toNat := by
    unfold twoValue
    omega
  rw [ofScalar, if_neg (by omega), if_pos (by omega), hlead, htail]
  simp

theorem ofScalar_threeValue (ha : 0xE0 ≤ a.toNat ∧ a.toNat ≤ 0xEF) (hb : isSecondOfThree a b)
    (hc : isTail c) : ofScalar (threeValue a b c) = [a, b, c] := by
  rw [isTail_iff] at hc
  -- the lead 0xE0 keeps out what fits into two bytes
  have hsecond : 0x80 ≤ b.toNat ∧ b.toNat ≤ 0xBF ∧ (a.toNat = 0xE0 → 0xA0 ≤ b.toNat) := by
    rw [isSecondOfThree_iff] at hb
    split at hb <;> split at hb <;> omega
  have hlead : 0xE0 + threeValue a b c / 0x1000 = a.toNat := by
    unfold threeValue
    omega
  have hmiddle : 0x80 + threeValue a b c / 0x40 % 0x40 = b.toNat := by
    unfold threeValue
    omega
  have htail : 0x80 + threeValue a b c % 0x40 = c.toNat := by
    unfold threeValue
    omega
  rw [ofScalar, if_neg (by omega), if_neg (by omega), if_pos (by omega), hlead, hmiddle, htail]
  simp

theorem ofScalar_fourValue (ha : 0xF0 ≤ a.toNat ∧ a.toNat ≤ 0xF4) (hb : isSecondOfFour a b)
    (hc : isTail c) (hd : isTail d) : ofScalar (fourValue a b c d) = [a, b, c, d] := by
  rw [isTail_iff] at hc hd
  -- the lead 0xF0 keeps out what fits into three bytes
  have hsecond : 0x80 ≤ b.toNat ∧ b.toNat ≤ 0xBF ∧ (a.toNat = 0xF0 → 0x90 ≤ b.toNat) := by
    rw [isSecondOfFour_iff] at hb
    split at hb <;> split at hb <;> omega
  have hlead : 0xF0 + fourValue a b c d / 0x40000 = a.toNat := by
    unfold fourValue
    omega
  have hfirst : 0x80 + fourValue a b c d / 0x1000 % 0x40 = b.toNat := by
    unfold fourValue
    omega
  have hmiddle : 0x80 + fourValue a b c d / 0x40 % 0x40 = c.toNat := by
    unfold fourValue
    omega
  have htail : 0x80 + fourValue a b c d % 0x40 = d.toNat := by
    unfold fourValue
    omega
  rw [ofScalar, if_neg (by omega), if_neg (by omega), if_neg (by omega), hlead, hfirst, hmiddle,
    htail]
  simp

/-- A text and its bytes are put together from the same scalar values. -/
def Spells (bytes : Bytes) (t : Text) : Prop :=
  ∃ values : List Nat, (∀ v ∈ values, Text.IsScalar v) ∧ t = values.flatMap Text.ofScalar ∧
    bytes = values.flatMap ofScalar

theorem spells_append {value : Nat} (hvalue : Text.IsScalar value) {bytes : Bytes} {t : Text}
    (h : Spells bytes t) : Spells (ofScalar value ++ bytes) (Text.ofScalar value ++ t) := by
  obtain ⟨values, hvalues, rfl, rfl⟩ := h
  exact ⟨value :: values, List.forall_mem_cons.mpr ⟨hvalue, hvalues⟩, rfl, rfl⟩

theorem spells_of_map {index value : Nat} (hvalue : Text.IsScalar value) {first rest : Bytes}
    (hfirst : ofScalar value = first) {t : Text}
    (ih : ∀ {t}, decodeFrom index rest = .ok t → Spells rest t)
    (h : (Text.ofScalar value ++ ·) <$> decodeFrom index rest = .ok t) : Spells (first ++ rest) t := by
  obtain ⟨u, hrest, rfl⟩ := map_eq_ok.mp h
  rw [← hfirst]
  exact spells_append hvalue (ih hrest)

theorem spells_of_decodeFrom {index : Nat} {bytes : Bytes} {t : Text}
    (h : decodeFrom index bytes = .ok t) : Spells bytes t := by
  fun_induction decodeFrom index bytes generalizing t with
  | case1 =>
    obtain rfl := Except.ok.inj h
    exact ⟨[], by simp, rfl, rfl⟩
  | case2 index a rest ha ih =>
    have ha' : a.toNat < 0x80 := ha
    exact spells_of_map (.inl (by omega)) (ofScalar_of_lt ha') ih h
  | case5 index a _ ha b rest hb ih =>
    have ha' := bounds_of_lead ha
    have hb' : isTail b := by simpa using hb
    exact spells_of_map (isScalar_twoValue ha' hb') (ofScalar_twoValue ha' hb') ih h
  | case10 index a _ _ ha b hb c rest hc ih =>
    have ha' := bounds_of_lead ha
    have hb' : isSecondOfThree a b := by simpa using hb
    have hc' : isTail c := by simpa using hc
    exact spells_of_map (isScalar_threeValue ha' hb' hc') (ofScalar_threeValue ha' hb' hc') ih h
  | case17 index a _ _ _ ha b hb c hc d rest hd ih =>
    have ha' := bounds_of_lead ha
    have hb' : isSecondOfFour a b := by simpa using hb
    have hc' : isTail c := by simpa using hc
    have hd' : isTail d := by simpa using hd
    exact spells_of_map (isScalar_fourValue ha' hb' hc' hd') (ofScalar_fourValue ha' hb' hc' hd') ih h
  | _ => cases h

theorem symbols_of_decode {bytes : Bytes} {t : Text} (h : decode bytes = .ok t) :
    ∃ values : List Nat, t.symbols = values.map .scalar ∧ bytes = values.flatMap ofScalar := by
  obtain ⟨values, hvalues, rfl, hbytes⟩ := spells_of_decodeFrom h
  exact ⟨values, Text.symbols_flatMap_ofScalar hvalues, hbytes⟩

/-- A text that was read from UTF-8 has no unpaired surrogate. -/
theorem hasUnpaired_of_decode {bytes : Bytes} {t : Text} (h : decode bytes = .ok t) :
    t.hasUnpaired = false := by
  obtain ⟨values, hsymbols, -⟩ := symbols_of_decode h
  rw [Text.hasUnpaired, hsymbols]
  simp [Text.Symbol.isLone]

/-- What was read from UTF-8 is written in the bytes that were read. -/
theorem encode_decode {bytes : Bytes} {t : Text} (h : decode bytes = .ok t) :
    encode t = some bytes := by
  obtain ⟨values, hsymbols, rfl⟩ := symbols_of_decode h
  rw [encode, hasUnpaired_of_decode h, hsymbols, List.flatMap_map]
  rfl

/-- Nothing in it had to be replaced. -/
theorem encodeLossy_of_decode {bytes : Bytes} {t : Text} (h : decode bytes = .ok t) :
    encodeLossy t = bytes := by
  have hencode := encode_decode h
  rw [encode, hasUnpaired_of_decode h] at hencode
  exact Option.some.inj hencode

theorem isScalar_of_mem_map_toNat (cs : List Char) : ∀ v ∈ cs.map Char.toNat, Text.IsScalar v := by
  intro v hv
  obtain ⟨c, -, rfl⟩ := List.mem_map.mp hv
  rcases c.valid with hlow | hhigh
  · exact .inl hlow
  · exact .inr hhigh

theorem decode_ofChars (cs : List Char) :
    decode (ofChars cs) = .ok ((cs.map Char.toNat).flatMap Text.ofScalar) := by
  rw [decode, ← decodeFrom_flatMap_ofScalar (isScalar_of_mem_map_toNat cs) 0, List.flatMap_map]
  rfl

/-- The bytes of characters are read as these characters. -/
theorem decodeChars_ofChars (cs : List Char) : decodeChars (ofChars cs) = .ok cs := by
  have hsymbols := Text.symbols_flatMap_ofScalar (isScalar_of_mem_map_toNat cs)
  have hchars : Text.toCharsLossy ((cs.map Char.toNat).flatMap Text.ofScalar) = cs := by
    rw [Text.toCharsLossy, hsymbols, List.map_map, List.map_map]
    exact List.map_id'' (fun c => Char.ofNat_toNat c) cs
  rw [decodeChars, decode_ofChars]
  exact congrArg Except.ok hchars

/-- No other characters are written in the same bytes. -/
theorem ofChars_inj {cs ds : List Char} (h : ofChars cs = ofChars ds) : cs = ds := by
  have htexts : (cs.map Char.toNat).flatMap Text.ofScalar = (ds.map Char.toNat).flatMap Text.ofScalar :=
    Except.ok.inj (by rw [← decode_ofChars cs, h, decode_ofChars ds])
  have hsymbols := congrArg Text.symbols htexts
  rw [Text.symbols_flatMap_ofScalar (isScalar_of_mem_map_toNat cs),
    Text.symbols_flatMap_ofScalar (isScalar_of_mem_map_toNat ds), List.map_map, List.map_map] at hsymbols
  refine (List.map_inj_right fun c d heq => ?_).mp hsymbols
  exact Char.toNat_inj.mp (Text.Symbol.scalar.inj heq)

theorem toNat_charOfNat {value : Nat} (h : Text.IsScalar value) : (Char.ofNat value).toNat = value := by
  have hvalid : value.isValidChar := h.imp id fun h => ⟨by omega, h.2⟩
  rw [Char.ofNat, dif_pos hvalid]
  rfl

/-- Characters that were read are written in the bytes that were read. -/
theorem ofChars_of_decodeChars {bytes : Bytes} {cs : List Char} (h : decodeChars bytes = .ok cs) :
    ofChars cs = bytes := by
  obtain ⟨t, hdecode, rfl⟩ := map_eq_ok.mp h
  obtain ⟨values, hvalues, rfl, rfl⟩ := spells_of_decodeFrom hdecode
  rw [Text.toCharsLossy, Text.symbols_flatMap_ofScalar hvalues, List.map_map, ofChars, List.flatMap_map]
  exact List.flatMap_congr fun v hv => congrArg ofScalar (toNat_charOfNat (hvalues v hv))

theorem ofScalar_ne_nil (value : Nat) : ofScalar value ≠ [] := by
  rw [ofScalar]
  repeat' split
  all_goals exact List.cons_ne_nil _ _

/-- From 0x80 on no byte of a scalar value is below 0x80. -/
theorem le_toNat_of_mem_ofScalar {value : Nat} (hlow : 0x80 ≤ value) (hhigh : value < 0x110000)
    {b : UInt8} (h : b ∈ ofScalar value) : 0x80 ≤ b.toNat := by
  have hbyte {n : Nat} (hn : 0x80 ≤ n ∧ n < 0x100) : 0x80 ≤ n.toUInt8.toNat := by
    rw [toNat_toUInt8 n hn.2]
    exact hn.1
  rw [ofScalar, if_neg (by omega)] at h
  repeat' split at h
  all_goals simp only [List.mem_cons, List.not_mem_nil, or_false] at h
  · rcases h with rfl | rfl <;> exact hbyte (by omega)
  · rcases h with rfl | rfl | rfl <;> exact hbyte (by omega)
  · rcases h with rfl | rfl | rfl | rfl <;> exact hbyte (by omega)

/-- A character below 0x80 stands in front where its byte does. -/
theorem head?_ofChars_eq_some_iff {b : UInt8} (hb : b.toNat < 0x80) {cs : List Char} :
    (ofChars cs).head? = some b ↔ cs.head? = some (Char.ofNat b.toNat) := by
  have hback : (Char.ofNat b.toNat).toNat = b.toNat := toNat_charOfNat (.inl (by omega))
  cases cs with
  | nil => simp [ofChars]
  | cons c cs =>
    rw [ofChars, List.flatMap_cons, List.head?_cons, Option.some_inj, ← Char.toNat_inj, hback]
    by_cases hc : c.toNat < 0x80
    · have hone : (c.toNat.toUInt8).toNat = c.toNat := toNat_toUInt8 c.toNat (by omega)
      rw [ofScalar, if_pos hc, List.cons_append, List.head?_cons, Option.some_inj, ← UInt8.toNat_inj, hone]
    · have hscalar : Text.IsScalar c.toNat := isScalar_of_mem_map_toNat [c] _ (by simp)
      obtain ⟨lead, rest, hlead⟩ := List.exists_cons_of_ne_nil (ofScalar_ne_nil c.toNat)
      have hhigh : 0x80 ≤ lead.toNat := le_toNat_of_mem_ofScalar (Nat.le_of_not_lt hc)
        (by unfold Text.IsScalar at hscalar; omega) (hlead ▸ List.mem_cons_self)
      rw [hlead, List.cons_append, List.head?_cons, Option.some_inj, ← UInt8.toNat_inj]
      omega

end Utf8

namespace Charset

theorem highByte_ofHighLow (high low : UInt8) : highByte (ofHighLow high low) = high := by
  have hlow : low.toNat < 0x100 := low.toNat_lt
  apply UInt8.toNat_inj.mp
  rw [toNat_highByte, toNat_ofHighLow]
  omega

theorem lowByte_ofHighLow (high low : UInt8) : lowByte (ofHighLow high low) = low := by
  have hlow : low.toNat < 0x100 := low.toNat_lt
  apply UInt8.toNat_inj.mp
  rw [toNat_lowByte, toNat_ofHighLow]
  omega

theorem flatMap_pairUp {join : UInt8 → UInt8 → UInt16} {first second : UInt16 → UInt8}
    (hfirst : ∀ a b, first (join a b) = a) (hsecond : ∀ a b, second (join a b) = b) {bytes : Bytes}
    (heven : bytes.length % 2 = 0) :
    ((pairUp join bytes).flatMap fun u => [first u, second u]) = bytes := by
  fun_induction pairUp join bytes with
  | case1 a b rest ih =>
    have hrest : rest.length % 2 = 0 := by
      simp only [List.length_cons] at heven
      omega
    rw [List.flatMap_cons, ih hrest, hfirst, hsecond]
    rfl
  | case2 bytes hshort =>
    match bytes, hshort with
    | [], _ => rfl
    | [a], _ => simp at heven
    | a :: b :: rest, hshort => exact absurd rfl (hshort a b rest)

/-- What was read in a charset is written in the bytes that were read. -/
theorem encode_decode {charset : Charset} {bytes : Bytes} {t : Text}
    (h : charset.decode bytes = .ok t) : charset.encode t = some bytes := by
  cases charset with
  | utf8 => exact Utf8.encode_decode (mapError_eq_ok.mp h)
  | utf16le =>
    rw [decode] at h
    split at h
    · rename_i heven
      obtain rfl := Except.ok.inj h
      exact congrArg some (flatMap_pairUp (fun a b => lowByte_ofHighLow b a)
        (fun a b => highByte_ofHighLow b a) heven)
    · cases h
  | utf16be =>
    rw [decode] at h
    split at h
    · rename_i heven
      obtain rfl := Except.ok.inj h
      exact congrArg some (flatMap_pairUp highByte_ofHighLow lowByte_ofHighLow heven)
    · cases h

end Charset
end EditHistory
