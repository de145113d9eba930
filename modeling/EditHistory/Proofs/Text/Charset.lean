import EditHistory.Text.Charset
import EditHistory.Proofs.Text.Symbols

/-! Texts in charsets are read back. UTF-8 goes scalar value by scalar value, UTF-16 unit by unit;
no unit takes more than three bytes. -/
namespace EditHistory
namespace Utf8

theorem toNat_toUInt8 (value : Nat) (h : value < 0x100) : value.toUInt8.toNat = value :=
  UInt8.toNat_ofNat_of_lt' h

variable {a b c d : UInt8}

theorem isTail_iff (b : UInt8) : isTail b ↔ 0x80 ≤ b.toNat ∧ b.toNat ≤ 0xBF := by
  simp [isTail, UInt8.le_iff_toNat_le]

theorem isSecondOfThree_iff (a b : UInt8) : isSecondOfThree a b ↔
    (if a.toNat = 0xE0 then 0xA0 else 0x80) ≤ b.toNat ∧
      b.toNat ≤ (if a.toNat = 0xED then 0x9F else 0xBF) := by
  have hlow : (if a = 0xE0 then (0xA0 : UInt8) else 0x80).toNat =
      if a.toNat = 0xE0 then 0xA0 else 0x80 := by
    simp only [← UInt8.toNat_inj]
    split <;> simp_all
  have hhigh : (if a = 0xED then (0x9F : UInt8) else 0xBF).toNat =
      if a.toNat = 0xED then 0x9F else 0xBF := by
    simp only [← UInt8.toNat_inj]
    split <;> simp_all
  simp only [isSecondOfThree, Bool.and_eq_true, decide_eq_true_eq, UInt8.le_iff_toNat_le, hlow, hhigh]

theorem isSecondOfFour_iff (a b : UInt8) : isSecondOfFour a b ↔
    (if a.toNat = 0xF0 then 0x90 else 0x80) ≤ b.toNat ∧
      b.toNat ≤ (if a.toNat = 0xF4 then 0x8F else 0xBF) := by
  have hlow : (if a = 0xF0 then (0x90 : UInt8) else 0x80).toNat =
      if a.toNat = 0xF0 then 0x90 else 0x80 := by
    simp only [← UInt8.toNat_inj]
    split <;> simp_all
  have hhigh : (if a = 0xF4 then (0x8F : UInt8) else 0xBF).toNat =
      if a.toNat = 0xF4 then 0x8F else 0xBF := by
    simp only [← UInt8.toNat_inj]
    split <;> simp_all
  simp only [isSecondOfFour, Bool.and_eq_true, decide_eq_true_eq, UInt8.le_iff_toNat_le, hlow, hhigh]

theorem decodeFrom_one (ha : a.toNat < 0x80) (index : Nat) (rest : Bytes) :
    decodeFrom index (a :: rest) = (Text.ofScalar a.toNat ++ ·) <$> decodeFrom (index + 1) rest := by
  have h : a < 0x80 := UInt8.lt_iff_toNat_lt.mpr ha
  rw [decodeFrom.eq_def]
  simp [h]

theorem decodeFrom_two (ha : 0xC2 ≤ a.toNat ∧ a.toNat ≤ 0xDF) (hb : isTail b) (index : Nat)
    (rest : Bytes) : decodeFrom index (a :: b :: rest) =
      (Text.ofScalar (twoValue a b) ++ ·) <$> decodeFrom (index + 2) rest := by
  have h₁ : ¬ a < 0x80 := by
    rw [UInt8.lt_iff_toNat_lt]
    change ¬ a.toNat < 0x80
    omega
  have h₂ : 0xC2 ≤ a ∧ a ≤ 0xDF := ha
  rw [decodeFrom.eq_def]
  simp [h₁, h₂, hb]

theorem decodeFrom_three (ha : 0xE0 ≤ a.toNat ∧ a.toNat ≤ 0xEF) (hb : isSecondOfThree a b)
    (hc : isTail c) (index : Nat) (rest : Bytes) : decodeFrom index (a :: b :: c :: rest) =
      (Text.ofScalar (threeValue a b c) ++ ·) <$> decodeFrom (index + 3) rest := by
  have h₁ : ¬ a < 0x80 := by
    rw [UInt8.lt_iff_toNat_lt]
    change ¬ a.toNat < 0x80
    omega
  have h₂ : ¬ (0xC2 ≤ a ∧ a ≤ 0xDF) := by
    change ¬ (0xC2 ≤ a.toNat ∧ a.toNat ≤ 0xDF)
    omega
  have h₃ : 0xE0 ≤ a ∧ a ≤ 0xEF := ha
  rw [decodeFrom.eq_def]
  simp [h₁, h₂, h₃, hb, hc]

theorem decodeFrom_four (ha : 0xF0 ≤ a.toNat ∧ a.toNat ≤ 0xF4) (hb : isSecondOfFour a b)
    (hc : isTail c) (hd : isTail d) (index : Nat) (rest : Bytes) :
    decodeFrom index (a :: b :: c :: d :: rest) =
      (Text.ofScalar (fourValue a b c d) ++ ·) <$> decodeFrom (index + 4) rest := by
  have h₁ : ¬ a < 0x80 := by
    rw [UInt8.lt_iff_toNat_lt]
    change ¬ a.toNat < 0x80
    omega
  have h₂ : ¬ (0xC2 ≤ a ∧ a ≤ 0xDF) := by
    change ¬ (0xC2 ≤ a.toNat ∧ a.toNat ≤ 0xDF)
    omega
  have h₃ : ¬ (0xE0 ≤ a ∧ a ≤ 0xEF) := by
    change ¬ (0xE0 ≤ a.toNat ∧ a.toNat ≤ 0xEF)
    omega
  have h₄ : 0xF0 ≤ a ∧ a ≤ 0xF4 := ha
  rw [decodeFrom.eq_def]
  simp [h₁, h₂, h₃, h₄, hb, hc, hd]

theorem twoValue_eq {value : Nat} (ha : a.toNat = 0xC0 + value / 0x40)
    (hb : b.toNat = 0x80 + value % 0x40) : twoValue a b = value := by
  unfold twoValue
  omega

theorem threeValue_eq {value : Nat} (ha : a.toNat = 0xE0 + value / 0x1000)
    (hb : b.toNat = 0x80 + value / 0x40 % 0x40) (hc : c.toNat = 0x80 + value % 0x40) :
    threeValue a b c = value := by
  unfold threeValue
  omega

theorem fourValue_eq {value : Nat} (ha : a.toNat = 0xF0 + value / 0x40000)
    (hb : b.toNat = 0x80 + value / 0x1000 % 0x40) (hc : c.toNat = 0x80 + value / 0x40 % 0x40)
    (hd : d.toNat = 0x80 + value % 0x40) : fourValue a b c d = value := by
  unfold fourValue
  omega

/-- The bytes of a scalar value are read as that value. -/
theorem decodeFrom_ofScalar_append {value : Nat} (h : Text.IsScalar value) (index : Nat)
    (rest : Bytes) : ∃ next, decodeFrom index (ofScalar value ++ rest) =
      (Text.ofScalar value ++ ·) <$> decodeFrom next rest := by
  rw [Text.IsScalar] at h
  rw [ofScalar]
  split
  · have ha := toNat_toUInt8 value (by omega)
    have hone := decodeFrom_one (a := value.toUInt8) (by omega) index rest
    rw [ha] at hone
    exact ⟨_, hone⟩
  · split
    · have ha := toNat_toUInt8 (0xC0 + value / 0x40) (by omega)
      have hb := toNat_toUInt8 (0x80 + value % 0x40) (by omega)
      have htwo := decodeFrom_two (a := (0xC0 + value / 0x40).toUInt8)
        (b := (0x80 + value % 0x40).toUInt8) (by omega) (by rw [isTail_iff]; omega) index rest
      rw [twoValue_eq ha hb] at htwo
      exact ⟨_, htwo⟩
    · split
      · have ha := toNat_toUInt8 (0xE0 + value / 0x1000) (by omega)
        have hb := toNat_toUInt8 (0x80 + value / 0x40 % 0x40) (by omega)
        have hc := toNat_toUInt8 (0x80 + value % 0x40) (by omega)
        have hthree := decodeFrom_three (a := (0xE0 + value / 0x1000).toUInt8)
          (b := (0x80 + value / 0x40 % 0x40).toUInt8) (c := (0x80 + value % 0x40).toUInt8)
          (by omega) (by rw [isSecondOfThree_iff, ha, hb]; split <;> split <;> omega)
          (by rw [isTail_iff]; omega) index rest
        rw [threeValue_eq ha hb hc] at hthree
        exact ⟨_, hthree⟩
      · have ha := toNat_toUInt8 (0xF0 + value / 0x40000) (by omega)
        have hb := toNat_toUInt8 (0x80 + value / 0x1000 % 0x40) (by omega)
        have hc := toNat_toUInt8 (0x80 + value / 0x40 % 0x40) (by omega)
        have hd := toNat_toUInt8 (0x80 + value % 0x40) (by omega)
        have hfour := decodeFrom_four (a := (0xF0 + value / 0x40000).toUInt8)
          (b := (0x80 + value / 0x1000 % 0x40).toUInt8) (c := (0x80 + value / 0x40 % 0x40).toUInt8)
          (d := (0x80 + value % 0x40).toUInt8) (by omega)
          (by rw [isSecondOfFour_iff, ha, hb]; split <;> split <;> omega)
          (by rw [isTail_iff]; omega) (by rw [isTail_iff]; omega) index rest
        rw [fourValue_eq ha hb hc hd] at hfour
        exact ⟨_, hfour⟩

theorem decodeFrom_flatMap_ofScalar {values : List Nat} (h : ∀ v ∈ values, Text.IsScalar v)
    (index : Nat) :
    decodeFrom index (values.flatMap ofScalar) = .ok (values.flatMap Text.ofScalar) := by
  induction values generalizing index with
  | nil => rfl
  | cons v values ih =>
    obtain ⟨next, hnext⟩ :=
      decodeFrom_ofScalar_append (h v (by simp)) index (values.flatMap ofScalar)
    rw [List.flatMap_cons, hnext, ih (fun w hw => h w (by simp [hw]))]
    rfl

/-- What is decoded is the text, its unpaired surrogates replaced. -/
theorem decode_encodeLossy (t : Text) : decode (encodeLossy t) = .ok t.replaceUnpaired := by
  have hbytes : encodeLossy t = (t.symbols.map Text.Symbol.sanitized).flatMap ofScalar := by
    rw [encodeLossy, List.flatMap_map]
  rw [hbytes, Text.replaceUnpaired_eq]
  exact decodeFrom_flatMap_ofScalar Text.isScalar_of_mem_sanitized 0

theorem length_ofScalar_le (value : Nat) :
    (ofScalar value).length ≤ 3 * (Text.ofScalar value).length := by
  rw [ofScalar, Text.ofScalar]
  repeat' split
  all_goals (simp only [List.length_cons, List.length_nil]; omega)

theorem length_encodeLossy_le (t : Text) : (encodeLossy t).length ≤ 3 * t.length := by
  have hsum (symbols : List Text.Symbol) :
      (symbols.flatMap fun s => ofScalar s.sanitized).length ≤
        3 * (symbols.flatMap fun s => Text.ofScalar s.sanitized).length := by
    induction symbols with
    | nil => exact Nat.le_refl _
    | cons s symbols ih =>
      have hhead := length_ofScalar_le s.sanitized
      simp only [List.flatMap_cons, List.length_append]
      omega
  have h := hsum t.symbols
  rw [← Text.replaceUnpaired, Text.length_replaceUnpaired] at h
  exact h

end Utf8

namespace Charset

theorem toNat_highByte (u : UInt16) : (highByte u).toNat = u.toNat / 0x100 := by
  have hlt : u.toNat < 0x10000 := u.toNat_lt
  have hshift : (u >>> 8).toNat = u.toNat / 0x100 := Nat.shiftRight_eq_div_pow u.toNat 8
  rw [highByte, UInt16.toNat_toUInt8, hshift]
  omega

theorem toNat_lowByte (u : UInt16) : (lowByte u).toNat = u.toNat % 0x100 := by
  simp [lowByte]

theorem toNat_ofHighLow (high low : UInt8) :
    (ofHighLow high low).toNat = high.toNat * 0x100 + low.toNat := by
  have hhigh : high.toNat < 0x100 := high.toNat_lt
  have hor := Nat.shiftLeft_add_eq_or_of_lt (i := 8) (b := low.toNat) low.toNat_lt high.toNat
  have hshift : high.toNat <<< 8 % 0x10000 = high.toNat <<< 8 := by
    rw [Nat.shiftLeft_eq]
    omega
  have hjoin : (ofHighLow high low).toNat = high.toNat <<< 8 % 0x10000 ||| low.toNat := by
    simp [ofHighLow]
  rw [hjoin, hshift, ← hor, Nat.shiftLeft_eq]

theorem ofHighLow_bytes (u : UInt16) : ofHighLow (highByte u) (lowByte u) = u := by
  apply UInt16.toNat_inj.mp
  rw [toNat_ofHighLow, toNat_highByte, toNat_lowByte]
  omega

theorem pairUp_flatMap (join : UInt8 → UInt8 → UInt16) (first second : UInt16 → UInt8)
    (h : ∀ u, join (first u) (second u) = u) (t : Text) :
    pairUp join (t.flatMap fun u => [first u, second u]) = t := by
  induction t with
  | nil => rfl
  | cons u t ih =>
    have hcons : pairUp join ((u :: t).flatMap fun u => [first u, second u]) =
        join (first u) (second u) :: pairUp join (t.flatMap fun u => [first u, second u]) := rfl
    rw [hcons, h, ih]

theorem length_flatMap_pair (t : Text) (first second : UInt16 → UInt8) :
    (t.flatMap fun u => [first u, second u]).length = 2 * t.length := by
  induction t with
  | nil => rfl
  | cons u t ih =>
    simp only [List.flatMap_cons, List.length_append, List.length_cons, List.length_nil, ih]
    omega

variable {charset : Charset} {t : Text} {bytes : Bytes}

/-- The texts that a charset can hold. -/
def Holds (charset : Charset) (t : Text) : Prop := charset = .utf8 → t.hasUnpaired = false

theorem encode_eq_none_iff : charset.encode t = none ↔ ¬ charset.Holds t := by
  cases charset with
  | utf8 => simp [encode, Utf8.encode, Holds]
  | utf16le => simp [encode, Holds]
  | utf16be => simp [encode, Holds]

/-- A text that a charset holds is read back from its bytes. -/
theorem decode_encode (h : charset.encode t = some bytes) : charset.decode bytes = .ok t := by
  have heven (first second : UInt16 → UInt8) :
      (t.flatMap fun u => [first u, second u]).length % 2 = 0 := by
    rw [length_flatMap_pair]
    omega
  cases charset with
  | utf8 =>
    have hpaired : t.hasUnpaired = false := by
      cases hunpaired : t.hasUnpaired with
      | false => rfl
      | true => simp [encode, Utf8.encode, hunpaired] at h
    have hbytes : Utf8.encodeLossy t = bytes := by
      simpa [encode, Utf8.encode, Utf8.encodeLossy, hpaired] using h
    have hback := Utf8.decode_encodeLossy t
    rw [hbytes, Text.replaceUnpaired_of_not_hasUnpaired hpaired] at hback
    rw [decode, hback]
    rfl
  | utf16le =>
    obtain rfl := Option.some.inj h
    have hpairs := pairUp_flatMap (fun a b => ofHighLow b a) lowByte highByte ofHighLow_bytes t
    rw [decode, if_pos (heven _ _), hpairs]
  | utf16be =>
    obtain rfl := Option.some.inj h
    have hpairs := pairUp_flatMap ofHighLow highByte lowByte ofHighLow_bytes t
    rw [decode, if_pos (heven _ _), hpairs]

theorem length_encode_le (h : charset.encode t = some bytes) : bytes.length ≤ 3 * t.length := by
  cases charset with
  | utf8 =>
    simp only [encode, Utf8.encode] at h
    split at h
    · cases h
    · obtain rfl := Option.some.inj h
      exact Utf8.length_encodeLossy_le t
  | utf16le =>
    obtain rfl := Option.some.inj h
    rw [length_flatMap_pair]
    omega
  | utf16be =>
    obtain rfl := Option.some.inj h
    rw [length_flatMap_pair]
    omega

end Charset
end EditHistory
