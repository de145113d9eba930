import EditHistory.CommandLine.ByteSize
import EditHistory.Proofs.Text.Blank
import EditHistory.Proofs.Text.Decimal
import Mathlib.Data.List.Basic

/-! The grammar of byte sizes: a numeral, white space and a suffix, each of the last two if there is need
of it, and white space around it all. Reading accepts the sizes that are words and nothing else. -/
namespace EditHistory
namespace ByteSize

/-- A suffix, or none, and its factor. -/
inductive Suffix : List Char → Nat → Prop
  | none : Suffix [] 1
  | kilo {c : Char} (h : c = 'k' ∨ c = 'K') : Suffix [c] (1 <<< 10)
  | mega {c : Char} (h : c = 'm' ∨ c = 'M') : Suffix [c] (1 <<< 20)
  | giga {c : Char} (h : c = 'g' ∨ c = 'G') : Suffix [c] (1 <<< 30)

/-- A text and the size that it stands for. -/
inductive Denotes : List Char → Nat → Prop
  | size {before numeral gap suffix after : List Char} {n factor : Nat}
      (hbefore : ∀ c ∈ before, isBlank c) (hnumeral : Decimal.Numeral numeral n)
      (hgap : ∀ c ∈ gap, isBlank c) (hsuffix : Suffix suffix factor)
      (hafter : ∀ c ∈ after, isBlank c) (hword : n * factor < Decimal.wordLimit) :
      Denotes (before ++ (numeral ++ (gap ++ (suffix ++ after)))) (n * factor)

variable {s numeral : List Char} {n v factor : Nat} {c : Char}

/-! ## The parts of a size -/

theorem factor?_eq_some_iff : factor? c = some factor ↔ Suffix [c] factor := by
  constructor
  · intro h
    unfold factor? at h
    split at h
    · rename_i hc
      obtain rfl := Option.some.inj h
      exact .kilo (by simpa using hc)
    · split at h
      · rename_i hc
        obtain rfl := Option.some.inj h
        exact .mega (by simpa using hc)
      · split at h
        · rename_i hc
          obtain rfl := Option.some.inj h
          exact .giga (by simpa using hc)
        · cases h
  · intro h
    cases h with
    | kilo h => rcases h with rfl | rfl <;> rfl
    | mega h => rcases h with rfl | rfl <;> rfl
    | giga h => rcases h with rfl | rfl <;> rfl

theorem Suffix.pos {suffix : List Char} (h : Suffix suffix factor) : 0 < factor := by
  cases h <;> decide

/-- A suffix stands behind the digits and below 0x80, and is no white space. -/
theorem Suffix.bounds (h : Suffix [c] factor) :
    0x39 < c.toNat ∧ c.toNat < 0x80 ∧ isBlank c = false := by
  cases h with
  | kilo h => rcases h with rfl | rfl <;> decide
  | mega h => rcases h with rfl | rfl <;> decide
  | giga h => rcases h with rfl | rfl <;> decide

theorem Suffix.eq_nil_or_singleton {suffix : List Char} (h : Suffix suffix factor) :
    (suffix = [] ∧ factor = 1) ∨ ∃ c, suffix = [c] := by
  cases h with
  | none => exact .inl ⟨rfl, rfl⟩
  | kilo h => exact .inr ⟨_, rfl⟩
  | mega h => exact .inr ⟨_, rfl⟩
  | giga h => exact .inr ⟨_, rfl⟩

theorem splitSuffix_concat (h : Suffix [c] factor) (front : List Char) :
    splitSuffix (front ++ [c]) = (front, factor) := by
  rw [splitSuffix, List.getLast?_concat, Option.bind_some, factor?_eq_some_iff.mpr h]
  simp

/-- Every text is cut in front of its suffix, if it has one. -/
theorem exists_splitSuffix (text : List Char) : ∃ front suffix factor,
    text = front ++ suffix ∧ Suffix suffix factor ∧ splitSuffix text = (front, factor) := by
  rcases List.eq_nil_or_concat' text with rfl | ⟨front, c, rfl⟩
  · exact ⟨[], [], 1, rfl, .none, rfl⟩
  · cases hfactor : factor? c with
    | none => exact ⟨front ++ [c], [], 1, (List.append_nil _).symm, .none, by simp [splitSuffix, hfactor]⟩
    | some factor =>
      have hsuffix : Suffix [c] factor := factor?_eq_some_iff.mp hfactor
      exact ⟨front, [c], factor, rfl, hsuffix, splitSuffix_concat hsuffix front⟩

/-- The characters of a numeral are no white space and no suffixes. -/
theorem plain_of_digit_or_plus (h : c.isDigit ∨ c = '+') : isBlank c = false ∧ factor? c = none := by
  rcases h with h | rfl
  · have hbounds : 0x30 ≤ c.toNat ∧ c.toNat ≤ 0x39 := Char.isDigit_iff_toNat.mp h
    constructor
    · simp only [isBlank, Bool.or_eq_false_iff, Bool.and_eq_false_iff, decide_eq_false_iff_not]
      omega
    · rw [Option.eq_none_iff_forall_not_mem]
      intro factor hfactor
      have hbehind := (factor?_eq_some_iff.mp hfactor).bounds
      omega
  · exact ⟨by decide, by decide⟩

theorem splitSuffix_numeral (h : Decimal.Numeral numeral n) : splitSuffix numeral = (numeral, 1) := by
  obtain ⟨front, suffix, factor, htext, hsuffix, hsplit⟩ := exists_splitSuffix numeral
  rcases hsuffix.eq_nil_or_singleton with ⟨rfl, rfl⟩ | ⟨c, rfl⟩
  · rw [hsplit, htext, List.append_nil]
  · have hc : c ∈ numeral := by simp [htext]
    have hnone := (plain_of_digit_or_plus (h.digit_or_plus c hc)).2
    rw [factor?_eq_some_iff.mpr hsuffix] at hnone
    cases hnone

theorem trim_numeral (h : Decimal.Numeral numeral n) : trim numeral = numeral :=
  trim_eq_self fun c hc => (plain_of_digit_or_plus (h.digit_or_plus c hc)).1

/-! ## Whole sizes -/

/-- A size is read from what is left of it at each step. -/
theorem read_eq_ok_iff_of_split {text front : List Char} (htrim : trim s = text) (hne : text ≠ [])
    (hsplit : splitSuffix text = (front, factor)) :
    read s = .ok v ↔
      ∃ n, Decimal.read (trim front) = .ok n ∧ n * factor < Decimal.wordLimit ∧ n * factor = v := by
  simp only [read, htrim, hsplit, List.isEmpty_iff, hne, if_false]
  cases Decimal.read (trim front) with
  | error fault => simp
  | ok n => by_cases hword : n * factor < Decimal.wordLimit <;> simp [hword]

theorem denotes_of_read (h : read s = .ok v) : Denotes s v := by
  obtain ⟨before, after, hs, hbefore, hafter⟩ := exists_eq_trim s
  obtain ⟨front, suffix, factor, htext, hsuffix, hsplit⟩ := exists_splitSuffix (trim s)
  obtain ⟨before', gap, hfront, hbefore', hgap⟩ := exists_eq_trim front
  have hne : trim s ≠ [] := by
    intro hnil
    simp [read, hnil] at h
  obtain ⟨n, hread, hword, rfl⟩ := (read_eq_ok_iff_of_split rfl hne hsplit).mp h
  have hnumeral := (Decimal.read_eq_ok_iff.mp hread).1
  rw [htext, hfront] at hs
  have hall : s = (before ++ before') ++ (trim front ++ (gap ++ (suffix ++ after))) := by
    simpa only [List.append_assoc] using hs
  rw [hall]
  refine .size ?_ hnumeral hgap hsuffix hafter hword
  exact fun c hc => (List.mem_append.mp hc).elim (hbefore c) (hbefore' c)

theorem read_of_denotes (h : Denotes s v) : read s = .ok v := by
  cases h with
  | @size before numeral gap suffix after n factor hbefore hnumeral hgap hsuffix hafter hword =>
    have hn : n < Decimal.wordLimit := Nat.lt_of_le_of_lt (Nat.le_mul_of_pos_right n hsuffix.pos) hword
    have hread : Decimal.read numeral = .ok n := Decimal.read_eq_ok_iff.mpr ⟨hnumeral, hn⟩
    rcases hsuffix.eq_nil_or_singleton with ⟨rfl, rfl⟩ | ⟨c, rfl⟩
    · have hblank : ∀ c ∈ gap ++ after, isBlank c = true :=
        fun c hc => (List.mem_append.mp hc).elim (hgap c) (hafter c)
      have htrim : trim (before ++ (numeral ++ (gap ++ ([] ++ after)))) = numeral := by
        rw [trim_blank_append hbefore, List.nil_append, trim_append hblank, trim_numeral hnumeral]
      rw [read_eq_ok_iff_of_split htrim hnumeral.ne_nil (splitSuffix_numeral hnumeral),
        trim_numeral hnumeral]
      exact ⟨n, hread, hword, rfl⟩
    · have htrim : trim (before ++ (numeral ++ (gap ++ ([c] ++ after)))) = (numeral ++ gap) ++ [c] := by
        have hall : numeral ++ (gap ++ ([c] ++ after)) = ((numeral ++ gap) ++ [c]) ++ after := by simp
        rw [trim_blank_append hbefore, hall, trim_append hafter]
        refine trim_eq_of_ends (fun d hd => ?_) (fun d hd => ?_)
        · obtain ⟨first, rest, rfl⟩ := List.exists_cons_of_ne_nil hnumeral.ne_nil
          obtain rfl : first = d := by simpa using hd
          exact (plain_of_digit_or_plus (hnumeral.digit_or_plus first List.mem_cons_self)).1
        · obtain rfl : c = d := by simpa using hd
          exact hsuffix.bounds.2.2
      rw [read_eq_ok_iff_of_split htrim (by simp) (splitSuffix_concat hsuffix _), trim_append hgap,
        trim_numeral hnumeral]
      exact ⟨n, hread, hword, rfl⟩

/-- The sizes that are read are those that the grammar knows and a word holds. -/
theorem read_eq_ok_iff : read s = .ok v ↔ Denotes s v := ⟨denotes_of_read, read_of_denotes⟩

end ByteSize
end EditHistory
