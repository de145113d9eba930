import EditHistory.Text.Decimal
import Mathlib.Tactic.Common

/-! Decimal numerals. Reading accepts the numerals of the 64-bit words and nothing else. -/
namespace EditHistory
namespace Decimal

/-- A numeral, with or without a plus sign, and the number it stands for. -/
inductive Numeral : List Char → Nat → Prop
  | plain {digits : List Char} (hne : digits ≠ []) (hdigits : ∀ c ∈ digits, c.isDigit) :
      Numeral digits (Nat.ofDigitChars 10 digits 0)
  | signed {digits : List Char} (hne : digits ≠ []) (hdigits : ∀ c ∈ digits, c.isDigit) :
      Numeral ('+' :: digits) (Nat.ofDigitChars 10 digits 0)

variable {cs : List Char} {acc n : Nat}

theorem Numeral.ne_nil (h : Numeral cs n) : cs ≠ [] := by
  cases h with
  | plain hne hdigits => exact hne
  | signed hne hdigits => exact List.cons_ne_nil _ _

theorem Numeral.digit_or_plus (h : Numeral cs n) : ∀ c ∈ cs, c.isDigit ∨ c = '+' := by
  cases h with
  | plain hne hdigits => exact fun c hc => .inl (hdigits c hc)
  | signed hne hdigits => exact List.forall_mem_cons.mpr ⟨.inr rfl, fun c hc => .inl (hdigits c hc)⟩

theorem le_ofDigitChars (cs : List Char) (acc : Nat) : acc ≤ Nat.ofDigitChars 10 cs acc := by
  induction cs generalizing acc with
  | nil => exact Nat.le_refl _
  | cons c cs ih =>
    rw [Nat.ofDigitChars_cons]
    exact Nat.le_trans (by omega) (ih _)

/-- A number that has become too large on the way does not get smaller any more. -/
theorem readDigits_eq_ok_iff (hacc : acc < wordLimit) : readDigits acc cs = .ok n ↔
    (∀ c ∈ cs, c.isDigit) ∧ Nat.ofDigitChars 10 cs acc = n ∧ n < wordLimit := by
  induction cs generalizing acc with
  | nil =>
    simp only [readDigits, Except.ok.injEq, Nat.ofDigitChars_nil]
    constructor
    · rintro rfl
      exact ⟨nofun, rfl, hacc⟩
    · exact fun h => h.2.1
  | cons c cs ih =>
    have hvalue : acc * 10 + (c.toNat - 48) = 10 * acc + (c.toNat - '0'.toNat) := by
      rw [Nat.mul_comm]
      rfl
    rw [readDigits, Nat.ofDigitChars_cons, List.forall_mem_cons, hvalue]
    generalize 10 * acc + (c.toNat - '0'.toNat) = value
    cases hdigit : c.isDigit with
    | false => simp
    | true =>
      simp only [Bool.not_true, Bool.false_eq_true, if_false, true_and]
      by_cases hlt : value < wordLimit
      · rw [if_pos hlt]
        exact ih hlt
      · have hlarge := le_ofDigitChars cs value
        rw [if_neg hlt]
        refine iff_of_false nofun ?_
        rintro ⟨-, rfl, hsmall⟩
        exact hlt (Nat.lt_of_le_of_lt hlarge hsmall)

theorem read_plus (h : cs ≠ []) : read ('+' :: cs) = readDigits 0 cs := by
  cases cs with
  | nil => exact absurd rfl h
  | cons c cs => rfl

theorem read_cons {c : Char} (h : c ≠ '+') (cs : List Char) : read (c :: cs) = readDigits 0 (c :: cs) := by
  rw [read]
  · rintro rfl
    exact absurd rfl h
  · rintro c' rest rfl
    exact absurd rfl h

/-- What is read is a numeral of a word, and all of them are read. -/
theorem read_eq_ok_iff : read cs = .ok n ↔ Numeral cs n ∧ n < wordLimit := by
  have hword : 0 < wordLimit := by decide
  constructor
  · intro h
    match cs, h with
    | c :: cs, h =>
      by_cases hplus : c = '+'
      · subst hplus
        have hne : cs ≠ [] := by
          rintro rfl
          cases h
        rw [read_plus hne] at h
        obtain ⟨hdigits, rfl, hlt⟩ := (readDigits_eq_ok_iff hword).mp h
        exact ⟨.signed hne hdigits, hlt⟩
      · rw [read_cons hplus] at h
        obtain ⟨hdigits, rfl, hlt⟩ := (readDigits_eq_ok_iff hword).mp h
        exact ⟨.plain (List.cons_ne_nil c cs) hdigits, hlt⟩
  · rintro ⟨hnumeral, hlt⟩
    cases hnumeral with
    | plain hne hdigits =>
      obtain ⟨c, cs, rfl⟩ := List.exists_cons_of_ne_nil hne
      have hplus : c ≠ '+' := by
        rintro rfl
        exact absurd (hdigits '+' List.mem_cons_self) (by decide)
      rw [read_cons hplus]
      exact (readDigits_eq_ok_iff hword).mpr ⟨hdigits, rfl, hlt⟩
    | signed hne hdigits =>
      rw [read_plus hne]
      exact (readDigits_eq_ok_iff hword).mpr ⟨hdigits, rfl, hlt⟩

end Decimal
end EditHistory
