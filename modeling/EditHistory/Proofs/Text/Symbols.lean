import EditHistory.Text.Basic
import EditHistory.Proofs.Text.Segment

/-! The reading of a text as symbols. A text is the units of its symbols, a boundary that splits no
pair splits the reading too, and the units of a scalar value read as that value. -/
namespace EditHistory
namespace Text

theorem isHigh_iff (u : UInt16) : isHigh u ↔ 0xD800 ≤ u.toNat ∧ u.toNat ≤ 0xDBFF := by
  simp [isHigh, UInt16.le_iff_toNat_le]

theorem isLow_iff (u : UInt16) : isLow u ↔ 0xDC00 ≤ u.toNat ∧ u.toNat ≤ 0xDFFF := by
  simp [isLow, UInt16.le_iff_toNat_le]

theorem not_isLow_of_isHigh {u : UInt16} (h : isHigh u) : ¬ isLow u := by
  rw [isHigh_iff] at h
  rw [isLow_iff]
  omega

/-- Neither a surrogate nor too large. -/
def IsScalar (value : Nat) : Prop := value < 0xD800 ∨ (0xE000 ≤ value ∧ value < 0x110000)

namespace Symbol

/-- The units that read as a symbol. -/
def units : Symbol → Text
  | .scalar value => ofScalar value
  | .lone surrogate => [surrogate]

def IsValid : Symbol → Prop
  | .scalar value => IsScalar value
  | .lone surrogate => isHigh surrogate ∨ isLow surrogate

end Symbol

theorem toNat_toUInt16 {value : Nat} (h : value < 0x10000) : value.toUInt16.toNat = value :=
  UInt16.toNat_ofNat_of_lt' h

theorem ofScalar_toNat (u : UInt16) : ofScalar u.toNat = [u] := by
  have hlt : u.toNat < 0x10000 := u.toNat_lt
  have hback : u.toNat.toUInt16 = u := UInt16.toNat_inj.mp (toNat_toUInt16 hlt)
  rw [ofScalar, if_pos hlt, hback]

theorem isScalar_toNat {u : UInt16} (hhigh : ¬ isHigh u) (hlow : ¬ isLow u) : IsScalar u.toNat := by
  have hlt : u.toNat < 0x10000 := u.toNat_lt
  rw [isHigh_iff] at hhigh
  rw [isLow_iff] at hlow
  rw [IsScalar]
  omega

theorem pairValue_bounds {h l : UInt16} (hhigh : isHigh h) (hlow : isLow l) :
    0x10000 ≤ pairValue h l ∧ pairValue h l < 0x110000 := by
  rw [isHigh_iff] at hhigh
  rw [isLow_iff] at hlow
  unfold pairValue
  omega

theorem pairValue_eq {h l : UInt16} {value : Nat} (hvalue : 0x10000 ≤ value)
    (hh : h.toNat = 0xD800 + (value - 0x10000) / 0x400)
    (hl : l.toNat = 0xDC00 + (value - 0x10000) % 0x400) : pairValue h l = value := by
  unfold pairValue
  omega

theorem ofScalar_pairValue {h l : UInt16} (hhigh : isHigh h) (hlow : isLow l) :
    ofScalar (pairValue h l) = [h, l] := by
  have hbounds := pairValue_bounds hhigh hlow
  rw [isHigh_iff] at hhigh
  rw [isLow_iff] at hlow
  have hh : 0xD800 + (pairValue h l - 0x10000) / 0x400 = h.toNat := by
    unfold pairValue
    omega
  have hl : 0xDC00 + (pairValue h l - 0x10000) % 0x400 = l.toNat := by
    unfold pairValue
    omega
  rw [ofScalar, if_neg (by omega), hh, hl]
  simp

/-- A text is made of the units of its symbols. -/
theorem flatMap_units_symbols (t : Text) : t.symbols.flatMap Symbol.units = t := by
  fun_induction symbols t with
  | case1 => rfl
  | case2 u h => rfl
  | case3 u h => simpa [Symbol.units] using ofScalar_toNat u
  | case4 u v rest hu hv ih =>
    rw [List.flatMap_cons, ih, Symbol.units, ofScalar_pairValue hu hv]
    rfl
  | case5 u v rest hu hv ih => rw [List.flatMap_cons, ih]; rfl
  | case6 u v rest hu hl ih => rw [List.flatMap_cons, ih]; rfl
  | case7 u v rest hu hl ih =>
    rw [List.flatMap_cons, ih, Symbol.units, ofScalar_toNat]
    rfl

theorem isValid_of_mem_symbols {t : Text} : ∀ s ∈ t.symbols, s.IsValid := by
  fun_induction symbols t with
  | case1 => simp
  | case2 u h =>
    have hlone : (Symbol.lone u).IsValid := by simpa [Symbol.IsValid] using h
    simpa using hlone
  | case3 u h =>
    simp only [Bool.or_eq_true, not_or] at h
    have hscalar : (Symbol.scalar u.toNat).IsValid := isScalar_toNat h.1 h.2
    simpa using hscalar
  | case4 u v rest hu hv ih =>
    have hbounds := pairValue_bounds hu hv
    refine List.forall_mem_cons.mpr ⟨?_, ih⟩
    rw [Symbol.IsValid, IsScalar]
    omega
  | case5 u v rest hu hv ih => exact List.forall_mem_cons.mpr ⟨.inl hu, ih⟩
  | case6 u v rest hu hl ih => exact List.forall_mem_cons.mpr ⟨.inr hl, ih⟩
  | case7 u v rest hu hl ih => exact List.forall_mem_cons.mpr ⟨isScalar_toNat hu hl, ih⟩

theorem symbols_pair {u v : UInt16} (hu : isHigh u) (hv : isLow v) (t : Text) :
    symbols (u :: v :: t) = .scalar (pairValue u v) :: symbols t := by
  rw [symbols, if_pos hu, if_pos hv]

theorem symbols_cons_low {u : UInt16} (hu : isLow u) (t : Text) :
    symbols (u :: t) = .lone u :: symbols t := by
  have hhigh : ¬ isHigh u := fun h => not_isLow_of_isHigh h hu
  cases t with
  | nil => simp [symbols, hu]
  | cons v t => rw [symbols, if_neg hhigh, if_pos hu]

theorem symbols_cons_high {u : UInt16} (hu : isHigh u) {t : Text}
    (ht : splitsPair (u :: t) 1 = false) : symbols (u :: t) = .lone u :: symbols t := by
  cases t with
  | nil => simp [symbols, hu]
  | cons v t =>
    have hv : ¬ isLow v := by simpa [splitsPair, hu] using ht
    rw [symbols, if_pos hu, if_neg hv]

theorem symbols_cons_scalar {u : UInt16} (hhigh : ¬ isHigh u) (hlow : ¬ isLow u) (t : Text) :
    symbols (u :: t) = .scalar u.toNat :: symbols t := by
  cases t with
  | nil => simp [symbols, hhigh, hlow]
  | cons v t => rw [symbols, if_neg hhigh, if_neg hlow]

theorem splitsPair_of_cons {u : UInt16} {t : Text} {i : Nat}
    (h : splitsPair (u :: t) (i + 1) = false) : t.splitsPair i = false := by
  cases i with
  | zero => rfl
  | succ i => exact h

theorem splitsPair_drop {t : Text} {i n : Nat} (h : t.splitsPair (i + n) = false) :
    splitsPair (t.drop i) n = false := by
  induction i generalizing t with
  | zero => simpa using h
  | succ i ih =>
    cases t with
    | nil => exact splitsPair_of_length_le (t := []) (Nat.zero_le n)
    | cons u t =>
      rw [Nat.succ_add] at h
      exact ih (splitsPair_of_cons h)

/-- A boundary that splits no pair splits the reading in two. -/
theorem symbols_append {s t : Text} (h : (s ++ t).splitsPair s.length = false) :
    (s ++ t).symbols = s.symbols ++ t.symbols := by
  fun_induction symbols s with
  | case1 => rfl
  | case2 u hu =>
    by_cases hhigh : isHigh u
    · exact symbols_cons_high hhigh h
    · have hlow : isLow u := by simpa [hhigh] using hu
      exact symbols_cons_low hlow t
  | case3 u hu =>
    simp only [Bool.or_eq_true, not_or] at hu
    exact symbols_cons_scalar hu.1 hu.2 t
  | case4 u v rest hu hv ih =>
    have hrest := ih (splitsPair_of_cons (splitsPair_of_cons h))
    exact (symbols_pair hu hv (rest ++ t)).trans (congrArg _ hrest)
  | case5 u v rest hu hv ih =>
    have hhead : splitsPair (u :: ((v :: rest) ++ t)) 1 = false := by
      simpa [splitsPair] using fun _ => hv
    exact (symbols_cons_high hu hhead).trans (congrArg _ (ih (splitsPair_of_cons h)))
  | case6 u v rest hu hl ih =>
    exact (symbols_cons_low hl _).trans (congrArg _ (ih (splitsPair_of_cons h)))
  | case7 u v rest hu hl ih =>
    exact (symbols_cons_scalar hu hl _).trans (congrArg _ (ih (splitsPair_of_cons h)))

/-- No pair is split behind a text that has no unpaired surrogate. -/
theorem splitsPair_append_of_not_hasUnpaired {s : Text} (h : s.hasUnpaired = false) (t : Text) :
    (s ++ t).splitsPair s.length = false := by
  rw [hasUnpaired] at h
  fun_induction symbols s with
  | case1 => rfl
  | case2 u hu => cases h
  | case3 u hu =>
    simp only [Bool.or_eq_true, not_or] at hu
    cases t <;> simp [splitsPair, hu.1]
  | case4 u v rest hu hv ih =>
    have hrest := ih (Bool.or_eq_false_iff.mp h).2
    cases rest with
    | nil =>
      have hlow : isHigh v = false := Bool.eq_false_iff.mpr fun hhigh => not_isLow_of_isHigh hhigh hv
      cases t <;> simp [splitsPair, hlow]
    | cons w rest => exact hrest
  | case5 u v rest hu hv ih => cases (Bool.or_eq_false_iff.mp h).1
  | case6 u v rest hu hl ih => cases (Bool.or_eq_false_iff.mp h).1
  | case7 u v rest hu hl ih => exact ih (Bool.or_eq_false_iff.mp h).2

theorem not_hasUnpaired_append {s t : Text} (hs : s.hasUnpaired = false) (ht : t.hasUnpaired = false) :
    (s ++ t).hasUnpaired = false := by
  rw [hasUnpaired, symbols_append (splitsPair_append_of_not_hasUnpaired hs t), List.any_append]
  exact Bool.or_eq_false_iff.mpr ⟨hs, ht⟩

theorem not_hasUnpaired_flatten {texts : List Text} (h : ∀ t ∈ texts, t.hasUnpaired = false) :
    hasUnpaired texts.flatten = false := by
  induction texts with
  | nil => rfl
  | cons t texts ih =>
    rw [List.flatten_cons]
    exact not_hasUnpaired_append (h t (by simp)) (ih fun s hs => h s (by simp [hs]))

/-- Both sides of a boundary that splits no pair are without unpaired surrogates if the whole is. -/
theorem not_hasUnpaired_take_drop {t : Text} {i : Nat} (h : t.hasUnpaired = false)
    (hi : t.splitsPair i = false) :
    hasUnpaired (t.take i) = false ∧ hasUnpaired (t.drop i) = false := by
  by_cases hle : i ≤ t.length
  · have hsplit : splitsPair (t.take i ++ t.drop i) (t.take i).length = false := by
      rwa [List.take_append_drop, List.length_take, Nat.min_eq_left hle]
    rw [← List.take_append_drop i t, hasUnpaired, symbols_append hsplit, List.any_append,
      Bool.or_eq_false_iff] at h
    exact h
  · rw [List.take_of_length_le (by omega), List.drop_eq_nil_of_le (by omega)]
    exact ⟨h, rfl⟩

/-- What stands between two boundaries that split no pair has no unpaired surrogate of its own. -/
theorem hasUnpaired_segment {t : Text} {start length : Nat} (h : t.hasUnpaired = false)
    (hstart : t.splitsPair start = false) (hstop : t.splitsPair (start + length) = false) :
    (t.segment start length).hasUnpaired = false := by
  have hdrop := (not_hasUnpaired_take_drop h hstart).2
  exact (not_hasUnpaired_take_drop hdrop (splitsPair_drop hstop)).1

theorem symbols_ofScalar_append {value : Nat} (h : IsScalar value) (t : Text) :
    symbols (ofScalar value ++ t) = .scalar value :: symbols t := by
  rw [IsScalar] at h
  by_cases hlt : value < 0x10000
  · have hback : value.toUInt16.toNat = value := toNat_toUInt16 hlt
    have hhigh : ¬ isHigh value.toUInt16 := by
      rw [isHigh_iff, hback]
      omega
    have hlow : ¬ isLow value.toUInt16 := by
      rw [isLow_iff, hback]
      omega
    have hcons := symbols_cons_scalar hhigh hlow t
    rw [hback] at hcons
    rw [ofScalar, if_pos hlt]
    exact hcons
  · have hh : (0xD800 + (value - 0x10000) / 0x400).toUInt16.toNat =
        0xD800 + (value - 0x10000) / 0x400 := toNat_toUInt16 (by omega)
    have hl : (0xDC00 + (value - 0x10000) % 0x400).toUInt16.toNat =
        0xDC00 + (value - 0x10000) % 0x400 := toNat_toUInt16 (by omega)
    have hvalue : pairValue (0xD800 + (value - 0x10000) / 0x400).toUInt16
        (0xDC00 + (value - 0x10000) % 0x400).toUInt16 = value :=
      pairValue_eq (Nat.le_of_not_lt hlt) hh hl
    have hpair := symbols_pair (u := (0xD800 + (value - 0x10000) / 0x400).toUInt16)
      (v := (0xDC00 + (value - 0x10000) % 0x400).toUInt16)
      (by rw [isHigh_iff, hh]; omega) (by rw [isLow_iff, hl]; omega) t
    rw [hvalue] at hpair
    rw [ofScalar, if_neg hlt]
    exact hpair

/-- The units of scalar values read as these values. -/
theorem symbols_flatMap_ofScalar {values : List Nat} (h : ∀ v ∈ values, IsScalar v) :
    symbols (values.flatMap ofScalar) = values.map Symbol.scalar := by
  induction values with
  | nil => rfl
  | cons v values ih =>
    rw [List.flatMap_cons, symbols_ofScalar_append (h v (by simp)),
      ih fun w hw => h w (by simp [hw]), List.map_cons]

theorem isScalar_sanitized {s : Symbol} (h : s.IsValid) : IsScalar s.sanitized := by
  cases s with
  | scalar value => exact h
  | lone surrogate =>
    exact .inr ⟨(by decide : 0xE000 ≤ replacement), (by decide : replacement < 0x110000)⟩

theorem isScalar_of_mem_sanitized {t : Text} : ∀ v ∈ t.symbols.map Symbol.sanitized, IsScalar v := by
  intro v hv
  obtain ⟨s, hs, rfl⟩ := List.mem_map.mp hv
  exact isScalar_sanitized (isValid_of_mem_symbols s hs)

theorem replaceUnpaired_eq (t : Text) :
    t.replaceUnpaired = (t.symbols.map Symbol.sanitized).flatMap ofScalar := by
  rw [replaceUnpaired, List.flatMap_map]

/-- A text without unpaired surrogates is left as it is. -/
theorem replaceUnpaired_of_not_hasUnpaired {t : Text} (h : t.hasUnpaired = false) :
    t.replaceUnpaired = t := by
  have hunits : t.symbols.flatMap (fun s => ofScalar s.sanitized) =
      t.symbols.flatMap Symbol.units := by
    simp only [List.flatMap]
    congr 1
    refine List.map_congr_left ?_
    intro s hs
    have hlone : s.isLone = false := by
      simpa using List.any_eq_false.mp h s hs
    cases s with
    | scalar value => rfl
    | lone surrogate => simp [Symbol.isLone] at hlone
  rw [replaceUnpaired, hunits, flatMap_units_symbols]

theorem hasUnpaired_replaceUnpaired (t : Text) : t.replaceUnpaired.hasUnpaired = false := by
  rw [hasUnpaired, replaceUnpaired_eq, symbols_flatMap_ofScalar isScalar_of_mem_sanitized]
  simp [Symbol.isLone]

theorem length_replaceUnpaired (t : Text) : t.replaceUnpaired.length = t.length := by
  have hlen (s : Symbol) : (ofScalar s.sanitized).length = s.units.length := by
    cases s <;> rfl
  have hunits := congrArg List.length (flatMap_units_symbols t)
  rw [List.length_flatMap] at hunits
  rw [replaceUnpaired, List.length_flatMap]
  simpa only [hlen] using hunits

end Text
end EditHistory
