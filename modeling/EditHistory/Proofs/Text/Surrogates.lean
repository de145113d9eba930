import EditHistory.Proofs.Text.Symbols

/-! Unpaired surrogates by their neighbours. Whether a surrogate is half of a pair shows in the units
beside it, and a text has an unpaired one where its reading as symbols has a lone one. -/
namespace EditHistory
namespace Text

/-- The unit at `i` is a high surrogate with no low one behind it, or a low one with no high one in
front of it. -/
def isUnpairedAt (t : Text) (i : Nat) : Bool :=
  t[i]?.any fun u =>
    (isHigh u && !t[i + 1]?.any isLow) || (isLow u && !(0 < i && t[i - 1]?.any isHigh))

theorem splitsPair_succ (t : Text) (i : Nat) :
    t.splitsPair (i + 1) = (t[i]?.any isHigh && t[i + 1]?.any isLow) := by
  rw [splitsPair]
  cases t[i]? <;> cases t[i + 1]? <;> simp

/-- A surrogate is unpaired where the boundary to its other half splits no pair. -/
theorem isUnpairedAt_iff {t : Text} {i : Nat} : t.isUnpairedAt i ↔
    ∃ u, t[i]? = some u ∧
      (isHigh u ∧ t.splitsPair (i + 1) = false ∨ isLow u ∧ t.splitsPair i = false) := by
  cases hu : t[i]? with
  | none => simp [isUnpairedAt, hu]
  | some u =>
    have hafter : (isHigh u ∧ t.splitsPair (i + 1) = false) ↔
        isHigh u ∧ (t[i + 1]?.any isLow) = false := by
      refine and_congr_right fun hhigh => ?_
      simp [splitsPair_succ, hu, hhigh]
    have hbefore : (isLow u ∧ t.splitsPair i = false) ↔
        isLow u ∧ (0 < i && t[i - 1]?.any isHigh) = false := by
      refine and_congr_right fun hlow => ?_
      cases i with
      | zero => simp
      | succ i => simp [splitsPair_succ, hu, hlow]
    simp only [isUnpairedAt, hu, Option.any_some, Bool.or_eq_true, Bool.and_eq_true,
      Bool.not_eq_true', Option.some_inj, exists_eq_left', hafter, hbefore]

/-- Where the first boundary splits no pair, the unit in front of it changes nothing behind it. -/
theorem isUnpairedAt_cons_succ {u : UInt16} {t : Text} (h : splitsPair (u :: t) 1 = false) (i : Nat) :
    isUnpairedAt (u :: t) (i + 1) = t.isUnpairedAt i := by
  rw [Bool.eq_iff_iff, isUnpairedAt_iff, isUnpairedAt_iff]
  have hfront : splitsPair (u :: t) (i + 1) = t.splitsPair i := by
    cases i with
    | zero => exact h
    | succ i => rfl
  rw [hfront]
  rfl

/-- A low surrogate, and whatever is in front of it, changes nothing behind it. -/
theorem isUnpairedAt_add_two {v : UInt16} (hv : isLow v) (u : UInt16) (t : Text) (i : Nat) :
    isUnpairedAt (u :: v :: t) (i + 2) = t.isUnpairedAt i := by
  have hhigh : ¬ isHigh v := fun h => not_isLow_of_isHigh h hv
  have hback : splitsPair (v :: t) 1 = false := by
    rw [splitsPair_succ]
    simp [hhigh]
  rw [← isUnpairedAt_cons_succ hback]
  simp [isUnpairedAt]

/-- In a pair neither half is unpaired. -/
theorem isUnpairedAt_pair {u v : UInt16} (hu : isHigh u) (hv : isLow v) (t : Text) :
    isUnpairedAt (u :: v :: t) 0 = false ∧ isUnpairedAt (u :: v :: t) 1 = false := by
  have hlow : ¬ isLow u := not_isLow_of_isHigh hu
  have hhigh : ¬ isHigh v := fun h => not_isLow_of_isHigh h hv
  constructor
  · simp [isUnpairedAt, hv, hlow]
  · simp [isUnpairedAt, hu, hhigh]

theorem exists_isUnpairedAt_pair {u v : UInt16} (hu : isHigh u) (hv : isLow v) (t : Text) :
    (∃ i, isUnpairedAt (u :: v :: t) i) ↔ ∃ i, t.isUnpairedAt i := by
  obtain ⟨hfirst, hsecond⟩ := isUnpairedAt_pair hu hv t
  constructor
  · rintro ⟨i, hi⟩
    match i, hi with
    | 0, hi => simp [hfirst] at hi
    | 1, hi => simp [hsecond] at hi
    | i + 2, hi => exact ⟨i, isUnpairedAt_add_two hv u t i ▸ hi⟩
  · rintro ⟨i, hi⟩
    exact ⟨i + 2, (isUnpairedAt_add_two hv u t i).symm ▸ hi⟩

theorem isUnpairedAt_cons_zero {u : UInt16} {t : Text} (h : splitsPair (u :: t) 1 = false) :
    isUnpairedAt (u :: t) 0 = (isHigh u || isLow u) := by
  rw [Bool.eq_iff_iff, isUnpairedAt_iff]
  simp [h]

/-- Where the first boundary splits no pair, an unpaired unit is the first one or behind it. -/
theorem exists_isUnpairedAt_cons {u : UInt16} {t : Text} (h : splitsPair (u :: t) 1 = false) :
    (∃ i, isUnpairedAt (u :: t) i) ↔ (isHigh u ∨ isLow u) ∨ ∃ i, t.isUnpairedAt i := by
  have hfirst : isUnpairedAt (u :: t) 0 ↔ isHigh u ∨ isLow u := by
    rw [isUnpairedAt_cons_zero h, Bool.or_eq_true]
  constructor
  · rintro ⟨i, hi⟩
    cases i with
    | zero => exact .inl (hfirst.mp hi)
    | succ i => exact .inr ⟨i, isUnpairedAt_cons_succ h i ▸ hi⟩
  · rintro (hu | ⟨i, hi⟩)
    · exact ⟨0, hfirst.mpr hu⟩
    · exact ⟨i + 1, (isUnpairedAt_cons_succ h i).symm ▸ hi⟩

theorem splitsPair_one {u v : UInt16} (h : ¬ (isHigh u ∧ isLow v)) (t : Text) :
    splitsPair (u :: v :: t) 1 = false := by
  rw [splitsPair_succ]
  simpa using h

/-- A surrogate is unpaired by its neighbours where one is alone among the symbols. -/
theorem hasUnpaired_iff {t : Text} : t.hasUnpaired ↔ ∃ i, t.isUnpairedAt i := by
  rw [hasUnpaired]
  fun_induction symbols t with
  | case1 => simp [isUnpairedAt]
  | case2 u h =>
    have hu : isHigh u ∨ isLow u := by simpa using h
    exact iff_of_true rfl ((exists_isUnpairedAt_cons rfl).mpr (.inl hu))
  | case3 u h =>
    rw [exists_isUnpairedAt_cons rfl]
    simpa [isUnpairedAt, Symbol.isLone] using h
  | case4 u v rest hu hv ih => exact ih.trans (exists_isUnpairedAt_pair hu hv rest).symm
  | case5 u v rest hu hv ih =>
    have hwhole : splitsPair (u :: v :: rest) 1 = false := splitsPair_one (fun h => hv h.2) rest
    exact iff_of_true rfl ((exists_isUnpairedAt_cons hwhole).mpr (.inl (.inl hu)))
  | case6 u v rest hu hl ih =>
    have hwhole : splitsPair (u :: v :: rest) 1 = false := splitsPair_one (fun h => hu h.1) rest
    exact iff_of_true rfl ((exists_isUnpairedAt_cons hwhole).mpr (.inl (.inr hl)))
  | case7 u v rest hu hl ih =>
    have hwhole : splitsPair (u :: v :: rest) 1 = false := splitsPair_one (fun h => hu h.1) rest
    rw [exists_isUnpairedAt_cons hwhole, or_iff_right (not_or.mpr ⟨hu, hl⟩)]
    exact ih

end Text
end EditHistory
