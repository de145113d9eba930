import EditHistory.Report.Json
import Mathlib.Tactic.Common

/-! Values on one line are read in one way only. Whatever follows a value, short of a digit, the value
and what follows it can be told from the characters. -/
namespace EditHistory
namespace Json

variable {r s : List Char}

/-! ## Strings -/

/-- The characters that are not written as they are. -/
def special : List Char := '"' :: '\\' :: (List.range 32).map Char.ofNat

theorem escape_of_not_special {c : Char} (h : c ∉ special) : escape c = [c] := by
  have hlarge : ¬ c.toNat < 32 := by
    intro hlt
    refine h (List.mem_cons_of_mem _ (List.mem_cons_of_mem _ ?_))
    exact List.mem_map.mpr ⟨c.toNat, List.mem_range.mpr hlt, Char.ofNat_toNat c⟩
  have hquote : c ≠ '"' := fun heq => h (heq ▸ by decide)
  have hslash : c ≠ '\\' := fun heq => h (heq ▸ by decide)
  rw [escape, if_neg hquote, if_neg hslash, if_neg (by omega), if_neg (by omega), if_neg (by omega),
    if_neg (by omega), if_neg (by omega), if_neg hlarge]

theorem exists_escape_of_special {c : Char} (h : c ∈ special) : ∃ cs, escape c = '\\' :: cs := by
  have hall : special.all fun c => (escape c).head? == some '\\' := by decide
  exact List.head?_eq_some_iff.mp (beq_iff_eq.mp (List.all_eq_true.mp hall c h))

/-- No escape starts with another one. -/
theorem eq_of_prefix_escape {c d : Char} (hc : c ∈ special) (hd : d ∈ special)
    (h : escape c <+: escape d) : c = d := by
  -- a test over the list, since characters in general cannot be gone through
  have hall : special.all fun c => special.all fun d => !(escape c).isPrefixOf (escape d) || c == d := by
    decide +kernel
  have hboth := List.all_eq_true.mp (List.all_eq_true.mp hall c hc) d hd
  simpa [List.isPrefixOf_iff_prefix.mpr h] using hboth

theorem escape_append_ne {c d : Char} (hc : c ∈ special) (hd : d ∉ special) :
    escape c ++ r ≠ escape d ++ s := by
  intro h
  obtain ⟨cs, hcs⟩ := exists_escape_of_special hc
  rw [hcs, escape_of_not_special hd] at h
  obtain rfl : '\\' = d := (List.cons.inj h).1
  exact hd (by decide)

theorem escape_append_inj {c d : Char} (h : escape c ++ r = escape d ++ s) : c = d ∧ r = s := by
  by_cases hc : c ∈ special
  · by_cases hd : d ∈ special
    · have heq : c = d := by
        rcases List.prefix_or_prefix_of_prefix (List.prefix_append (escape c) r)
          (h ▸ List.prefix_append (escape d) s) with hsub | hsub
        · exact eq_of_prefix_escape hc hd hsub
        · exact (eq_of_prefix_escape hd hc hsub).symm
      subst heq
      exact ⟨rfl, List.append_cancel_left h⟩
    · exact absurd h (escape_append_ne hc hd)
  · by_cases hd : d ∈ special
    · exact absurd h.symm (escape_append_ne hd hc)
    · rw [escape_of_not_special hc, escape_of_not_special hd] at h
      exact List.cons.inj h

/-- A quote stands at the end of a string only. -/
theorem escape_append_ne_quote (c : Char) : escape c ++ r ≠ '"' :: s := by
  intro h
  by_cases hc : c ∈ special
  · obtain ⟨cs, hcs⟩ := exists_escape_of_special hc
    rw [hcs] at h
    exact absurd (List.cons.inj h).1 (by decide)
  · rw [escape_of_not_special hc] at h
    obtain rfl := (List.cons.inj h).1
    exact hc (by decide)

theorem flatMap_escape_append_inj {cs ds : List Char}
    (h : cs.flatMap escape ++ '"' :: r = ds.flatMap escape ++ '"' :: s) : cs = ds ∧ r = s := by
  induction cs generalizing ds with
  | nil =>
    cases ds with
    | nil => exact ⟨rfl, (List.cons.inj h).2⟩
    | cons d ds =>
      rw [List.flatMap_cons, List.append_assoc] at h
      exact absurd h.symm (escape_append_ne_quote d)
  | cons c cs ih =>
    cases ds with
    | nil =>
      rw [List.flatMap_cons, List.append_assoc] at h
      exact absurd h (escape_append_ne_quote c)
    | cons d ds =>
      rw [List.flatMap_cons, List.append_assoc, List.flatMap_cons, List.append_assoc] at h
      obtain ⟨rfl, hrest⟩ := escape_append_inj h
      obtain ⟨rfl, hends⟩ := ih hrest
      exact ⟨rfl, hends⟩

theorem quote_append_inj {a b : String} (h : quote a ++ r = quote b ++ s) : a = b ∧ r = s := by
  simp only [quote, List.cons_append, List.append_assoc, List.nil_append, List.cons.injEq, true_and] at h
  obtain ⟨hchars, hends⟩ := flatMap_escape_append_inj h
  exact ⟨String.toList_inj.mp hchars, hends⟩

/-! ## Numbers -/

/-- No digit comes first. -/
def NoDigit (cs : List Char) : Prop := ∀ c ∈ cs.head?, c.isDigit = false

theorem takeWhile_toDigits_append (n : Nat) (h : NoDigit r) :
    (Nat.toDigits 10 n ++ r).takeWhile Char.isDigit = Nat.toDigits 10 n := by
  have hdigits : ∀ c ∈ Nat.toDigits 10 n, c.isDigit = true := fun c hc =>
    Nat.isDigit_of_mem_toDigits (by decide) (by decide) hc
  have hrest : r.takeWhile Char.isDigit = [] := by
    cases r with
    | nil => rfl
    | cons c r => simp [h c rfl]
  rw [List.takeWhile_append_of_pos hdigits, hrest, List.append_nil]

theorem toDigits_append_inj {m n : Nat} (hr : NoDigit r) (hs : NoDigit s)
    (h : Nat.toDigits 10 m ++ r = Nat.toDigits 10 n ++ s) : m = n ∧ r = s := by
  have hdigits : Nat.toDigits 10 m = Nat.toDigits 10 n := by
    rw [← takeWhile_toDigits_append m hr, h, takeWhile_toDigits_append n hs]
  have heq : m = n := by
    rw [← Nat.ofDigitChars_toDigits (b := 10) (n := m) (by decide) (by decide), hdigits,
      Nat.ofDigitChars_toDigits (by decide) (by decide)]
  rw [hdigits] at h
  exact ⟨heq, List.append_cancel_left h⟩

/-! ## Values -/

/-- The constructor of the values that start with a character, by its index. -/
def leadIndex (c : Char) : Nat :=
  if c = 'n' then 0
  else if c = 't' ∨ c = 'f' then 1
  else if c.isDigit then 2
  else if c = '"' then 3
  else if c = '[' then 4
  else if c = '\x7b' then 5
  else 6

theorem leadIndex_of_isDigit {c : Char} (h : c.isDigit = true) : leadIndex c = 2 := by
  have hother {d : Char} (hd : d.isDigit = false) : c ≠ d := fun heq => by simp [heq, hd] at h
  rw [leadIndex, if_neg (hother rfl), if_neg (not_or.mpr ⟨hother rfl, hother rfl⟩), if_pos h]

theorem exists_lead (j : Json) : ∃ c cs, j.compact = c :: cs ∧ leadIndex c = j.ctorIdx := by
  cases j with
  | null => exact ⟨'n', _, rfl, rfl⟩
  | bool b =>
    cases b with
    | false => exact ⟨'f', _, rfl, rfl⟩
    | true => exact ⟨'t', _, rfl, rfl⟩
  | num n =>
    obtain ⟨c, cs, hcs⟩ := List.exists_cons_of_ne_nil (Nat.toDigits_ne_nil (n := n) (b := 10))
    have hdigit : c.isDigit = true :=
      Nat.isDigit_of_mem_toDigits (by decide) (by decide) (hcs ▸ List.mem_cons_self)
    refine ⟨c, cs, ?_, leadIndex_of_isDigit hdigit⟩
    rw [compact, scalar, word, Nat.toString_eq_repr, Nat.toList_repr, hcs]
  | str t => exact ⟨'"', _, rfl, rfl⟩
  | arr items => exact ⟨'[', _, rfl, rfl⟩
  | obj members => exact ⟨'\x7b', _, rfl, rfl⟩

/-- Values that start alike have the same constructor. -/
theorem ctorIdx_eq {j k : Json} (h : j.compact ++ r = k.compact ++ s) : j.ctorIdx = k.ctorIdx := by
  obtain ⟨c, cs, hj, hc⟩ := exists_lead j
  obtain ⟨d, ds, hk, hd⟩ := exists_lead k
  rw [hj, hk] at h
  rw [← hc, ← hd, (List.cons.inj h).1]

/-- No value starts with the end of a list. -/
theorem compact_append_ne (j : Json) : j.compact ++ r ≠ ']' :: s := by
  intro h
  obtain ⟨c, cs, hj, hc⟩ := exists_lead j
  rw [hj] at h
  obtain rfl := (List.cons.inj h).1
  cases j <;> cases hc

/-- What stands between a part and the parts after it. -/
def separator {α : Type} (rest : List α) : List Char := if rest.isEmpty then [] else [',']

theorem compactItems_cons_append (j : Json) (items : List Json) (rest : List Char) :
    compactItems (j :: items) ++ rest = j.compact ++ (separator items ++ compactItems items ++ rest) := by
  cases items with
  | nil => simp [compactItems, separator]
  | cons k items => simp [compactItems, separator]

theorem compactMembers_cons_append (name : String) (j : Json) (members : List (String × Json))
    (rest : List Char) : compactMembers ((name, j) :: members) ++ rest =
      quote name ++ ':' :: (j.compact ++ (separator members ++ compactMembers members ++ rest)) := by
  cases members with
  | nil => simp [compactMembers, separator]
  | cons m members => simp [compactMembers, separator]

section Separated

variable {α : Type} {xs ys : List α} {body : List α → List Char} {stop : Char}

theorem noDigit_separator (hempty : body [] = []) (hstop : stop.isDigit = false) :
    NoDigit (separator xs ++ body xs ++ stop :: r) := by
  cases xs with
  | nil => simpa [NoDigit, separator, hempty] using hstop
  | cons x xs => simp [NoDigit, separator]

/-- Whether more parts follow is told by the next character. -/
theorem separator_append_inj (hempty : body [] = []) (hstop : stop ≠ ',')
    (h : separator xs ++ body xs ++ stop :: r = separator ys ++ body ys ++ stop :: s) :
    body xs ++ stop :: r = body ys ++ stop :: s := by
  cases xs with
  | nil =>
    cases ys with
    | nil => simpa [separator, hempty] using h
    | cons y ys => exact absurd (List.cons.inj (by simpa [separator, hempty] using h)).1 hstop
  | cons x xs =>
    cases ys with
    | nil => exact absurd (List.cons.inj (by simpa [separator, hempty] using h)).1.symm hstop
    | cons y ys => simpa [separator] using h

end Separated

mutual

/-- A value is read in one way only. -/
theorem compact_append_inj (j k : Json) {r s : List Char} (hr : NoDigit r) (hs : NoDigit s)
    (h : j.compact ++ r = k.compact ++ s) : j = k ∧ r = s := by
  -- values of different constructors differ in the first character already
  have hkind := ctorIdx_eq h
  cases j with
  | null =>
    cases k with
    | null => exact ⟨rfl, List.append_cancel_left h⟩
    | _ => cases hkind
  | bool b =>
    cases k with
    | bool c =>
      cases b <;> cases c
      · exact ⟨rfl, List.append_cancel_left h⟩
      · exact absurd (List.cons.inj h).1 (by decide)
      · exact absurd (List.cons.inj h).1 (by decide)
      · exact ⟨rfl, List.append_cancel_left h⟩
    | _ => cases hkind
  | num m =>
    cases k with
    | num n =>
      simp only [compact, scalar, word, Nat.toString_eq_repr, Nat.toList_repr] at h
      obtain ⟨rfl, hends⟩ := toDigits_append_inj hr hs h
      exact ⟨rfl, hends⟩
    | _ => cases hkind
  | str a =>
    cases k with
    | str b =>
      obtain ⟨rfl, hends⟩ := quote_append_inj h
      exact ⟨rfl, hends⟩
    | _ => cases hkind
  | arr items =>
    cases k with
    | arr items' =>
      simp only [compact, List.cons_append, List.append_assoc, List.cons.injEq, true_and,
        List.nil_append] at h
      obtain ⟨rfl, hends⟩ := compactItems_append_inj items items' h
      exact ⟨rfl, hends⟩
    | _ => cases hkind
  | obj members =>
    cases k with
    | obj members' =>
      simp only [compact, List.cons_append, List.append_assoc, List.cons.injEq, true_and,
        List.nil_append] at h
      obtain ⟨rfl, hends⟩ := compactMembers_append_inj members members' h
      exact ⟨rfl, hends⟩
    | _ => cases hkind

theorem compactItems_append_inj (xs ys : List Json) {r s : List Char}
    (h : compactItems xs ++ ']' :: r = compactItems ys ++ ']' :: s) : xs = ys ∧ r = s := by
  cases xs with
  | nil =>
    cases ys with
    | nil => exact ⟨rfl, (List.cons.inj h).2⟩
    | cons y ys =>
      rw [compactItems_cons_append] at h
      exact absurd h.symm (compact_append_ne y)
  | cons x xs =>
    cases ys with
    | nil =>
      rw [compactItems_cons_append] at h
      exact absurd h (compact_append_ne x)
    | cons y ys =>
      rw [compactItems_cons_append, compactItems_cons_append] at h
      obtain ⟨rfl, hrest⟩ :=
        compact_append_inj x y (noDigit_separator rfl rfl) (noDigit_separator rfl rfl) h
      obtain ⟨rfl, hends⟩ := compactItems_append_inj xs ys (separator_append_inj rfl (by decide) hrest)
      exact ⟨rfl, hends⟩

theorem compactMembers_append_inj (xs ys : List (String × Json)) {r s : List Char}
    (h : compactMembers xs ++ '\x7d' :: r = compactMembers ys ++ '\x7d' :: s) : xs = ys ∧ r = s := by
  cases xs with
  | nil =>
    cases ys with
    | nil => exact ⟨rfl, (List.cons.inj h).2⟩
    | cons y ys =>
      rw [compactMembers_cons_append] at h
      exact absurd (List.cons.inj h).1 (by decide)
  | cons x xs =>
    cases ys with
    | nil =>
      rw [compactMembers_cons_append] at h
      exact absurd (List.cons.inj h).1 (by decide)
    | cons y ys =>
      obtain ⟨name, j⟩ := x
      obtain ⟨name', k⟩ := y
      rw [compactMembers_cons_append, compactMembers_cons_append] at h
      obtain ⟨rfl, hvalues⟩ := quote_append_inj h
      obtain ⟨rfl, hrest⟩ := compact_append_inj j k (noDigit_separator rfl rfl)
        (noDigit_separator rfl rfl) (List.cons.inj hvalues).2
      obtain ⟨rfl, hends⟩ := compactMembers_append_inj xs ys (separator_append_inj rfl (by decide) hrest)
      exact ⟨rfl, hends⟩

end

end Json
end EditHistory
