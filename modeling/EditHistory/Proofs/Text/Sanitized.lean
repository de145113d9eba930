import EditHistory.Proofs.Text.Surrogates

/-! Sanitized texts unit by unit. A text is read from the left to be sanitized, but whether a unit is
replaced shows in its neighbours alone. -/
namespace EditHistory
namespace Text

/-- A pair stays as it is. -/
theorem replaceUnpaired_pair {u v : UInt16} (hu : isHigh u) (hv : isLow v) (t : Text) :
    replaceUnpaired (u :: v :: t) = u :: v :: t.replaceUnpaired := by
  rw [replaceUnpaired, symbols_pair hu hv, List.flatMap_cons, Symbol.sanitized,
    ofScalar_pairValue hu hv]
  rfl

theorem replaceUnpaired_cons {u : UInt16} {t : Text} (h : splitsPair (u :: t) 1 = false) :
    replaceUnpaired (u :: t) = (if isHigh u || isLow u then 0xFFFD else u) :: t.replaceUnpaired := by
  by_cases hhigh : isHigh u
  · rw [replaceUnpaired, symbols_cons_high hhigh h, hhigh]
    rfl
  · by_cases hlow : isLow u
    · rw [replaceUnpaired, symbols_cons_low hlow, hlow, Bool.or_true]
      rfl
    · rw [replaceUnpaired, symbols_cons_scalar hhigh hlow, List.flatMap_cons, Symbol.sanitized,
        ofScalar_toNat, if_neg (by simp [hhigh, hlow])]
      rfl

/-- The text with every unpaired unit replaced, as its neighbours tell. -/
def sanitized (t : Text) : Text := t.mapIdx fun i u => if t.isUnpairedAt i then 0xFFFD else u

theorem sanitized_pair {u v : UInt16} (hu : isHigh u) (hv : isLow v) (t : Text) :
    sanitized (u :: v :: t) = u :: v :: t.sanitized := by
  obtain ⟨hfirst, hsecond⟩ := isUnpairedAt_pair hu hv t
  simp only [sanitized, List.mapIdx_cons, Nat.zero_add, hfirst, hsecond, Nat.add_assoc,
    isUnpairedAt_add_two hv]
  rfl

theorem sanitized_cons {u : UInt16} {t : Text} (h : splitsPair (u :: t) 1 = false) :
    sanitized (u :: t) = (if isHigh u || isLow u then 0xFFFD else u) :: t.sanitized := by
  simp only [sanitized, List.mapIdx_cons, isUnpairedAt_cons_zero h, isUnpairedAt_cons_succ h]

/-- What is replaced on the way from the left is what is unpaired by its neighbours. -/
theorem replaceUnpaired_eq_sanitized (t : Text) : t.replaceUnpaired = t.sanitized := by
  have hcons {u : UInt16} {t : Text} (h : splitsPair (u :: t) 1 = false)
      (ih : t.replaceUnpaired = t.sanitized) : replaceUnpaired (u :: t) = sanitized (u :: t) := by
    rw [replaceUnpaired_cons h, sanitized_cons h, ih]
  fun_induction symbols t with
  | case1 => rfl
  | case2 u h => exact hcons rfl rfl
  | case3 u h => exact hcons rfl rfl
  | case4 u v rest hu hv ih => rw [replaceUnpaired_pair hu hv, sanitized_pair hu hv, ih]
  | case5 u v rest hu hv ih => exact hcons (splitsPair_one (fun h => hv h.2) rest) ih
  | case6 u v rest hu hl ih => exact hcons (splitsPair_one (fun h => hu h.1) rest) ih
  | case7 u v rest hu hl ih => exact hcons (splitsPair_one (fun h => hu h.1) rest) ih

theorem getElem?_replaceUnpaired (t : Text) (i : Nat) :
    t.replaceUnpaired[i]? = t[i]?.map fun u => if t.isUnpairedAt i then 0xFFFD else u := by
  rw [replaceUnpaired_eq_sanitized, sanitized, List.getElem?_mapIdx]

example : replaceUnpaired [0xD800, 0xD801, 0xDC00, 0xDC00, 0x61] =
    [0xFFFD, 0xD801, 0xDC00, 0xFFFD, 0x61] := by decide

/-- The replacement character is no surrogate, so a unit that is replaced does not stay what it was. -/
theorem isUnpairedAt_iff_replaced {t : Text} {i : Nat} :
    t.isUnpairedAt i ↔ t.replaceUnpaired[i]? ≠ t[i]? := by
  rw [getElem?_replaceUnpaired]
  constructor
  · intro h hsame
    obtain ⟨u, hu, hsurrogate⟩ := isUnpairedAt_iff.mp h
    rw [hu, Option.map_some, if_pos h, Option.some_inj] at hsame
    subst hsame
    rcases hsurrogate with ⟨hhigh, -⟩ | ⟨hlow, -⟩
    · exact absurd hhigh (by decide)
    · exact absurd hlow (by decide)
  · intro h
    by_contra hpaired
    exact h (by simp [hpaired])

/-- Sanitizing keeps the length, replaces a unit where its neighbours leave it unpaired and no other one,
and leaves nothing unpaired; a text is found to have unpaired surrogates where a unit is replaced, and
one without them stays so on both sides of every boundary that splits no pair. -/
theorem replaceUnpaired_local (t : Text) :
    t.replaceUnpaired.length = t.length ∧
    (∀ i, t.replaceUnpaired[i]? = t[i]?.map fun u => if t.isUnpairedAt i then 0xFFFD else u) ∧
    t.replaceUnpaired.hasUnpaired = false ∧
    (t.hasUnpaired ↔ ∃ i, t.isUnpairedAt i) ∧
    (∀ i, t.isUnpairedAt i ↔ t.replaceUnpaired[i]? ≠ t[i]?) ∧
    (t.hasUnpaired = false → ∀ i, t.splitsPair i = false →
      hasUnpaired (t.take i) = false ∧ hasUnpaired (t.drop i) = false) := by
  refine ⟨length_replaceUnpaired t, getElem?_replaceUnpaired t, hasUnpaired_replaceUnpaired t,
    hasUnpaired_iff, fun i => isUnpairedAt_iff_replaced, ?_⟩
  intro h i hi
  exact not_hasUnpaired_take_drop h hi

theorem replaceUnpaired_local_around_pair :
    hasUnpaired [0x61, 0xD83D, 0xDE00] = false ∧ splitsPair [0x61, 0xD83D, 0xDE00] 1 = false ∧
      hasUnpaired [0x61] = false ∧ hasUnpaired [0xD83D, 0xDE00] = false := by
  have hwhole : hasUnpaired [0x61, 0xD83D, 0xDE00] = false := by decide
  have hcut : splitsPair [0x61, 0xD83D, 0xDE00] 1 = false := by decide
  exact ⟨hwhole, hcut, (replaceUnpaired_local _).2.2.2.2.2 hwhole 1 hcut⟩

end Text
end EditHistory
