import EditHistory.Proofs.Alignment.Scan

/-! The matches of two texts: the common start, what the scan of the middle finds, and the common
end. They fit the texts, lie apart, and split no surrogate pair, so that the blocks they lead to
cover both texts. -/
namespace EditHistory

namespace Alignment

variable (a b : Text)

theorem commonStart_le : commonStart a b ≤ a.length ∧ commonStart a b ≤ b.length := by
  fun_induction commonStart a b with
  | case1 => simp_all
  | case2 => simp
  | case3 => simp

theorem take_eq_of_le_commonStart {n : Nat} (h : n ≤ commonStart a b) : a.take n = b.take n := by
  fun_induction commonStart a b generalizing n with
  | case1 as x bs ih =>
    cases n with
    | zero => rfl
    | succ n => simp [ih (Nat.le_of_succ_le_succ h)]
  | case2 => simp [Nat.le_zero.mp h]
  | case3 => simp [Nat.le_zero.mp h]

theorem commonStart_append (s a b : Text) :
    commonStart (s ++ a) (s ++ b) = s.length + commonStart a b := by
  induction s with
  | nil => simp
  | cons u s ih =>
    rw [List.cons_append, List.cons_append, commonStart, if_pos rfl, ih, List.length_cons]
    omega

theorem trimEndLength_le (n : Nat) : trimEndLength a b n ≤ n := by
  induction n with
  | zero => exact Nat.le_refl _
  | succ n ih =>
    rw [trimEndLength]
    split <;> omega

theorem splitsPair_trimEndLength (n : Nat) :
    a.splitsPair (a.length - trimEndLength a b n) = false ∧
      b.splitsPair (b.length - trimEndLength a b n) = false := by
  induction n with
  | zero => exact ⟨Text.splitsPair_of_length_le (Nat.le_refl _),
      Text.splitsPair_of_length_le (Nat.le_refl _)⟩
  | succ n ih =>
    rw [trimEndLength]
    by_cases h : a.splitsPair (a.length - (n + 1)) || b.splitsPair (b.length - (n + 1))
    · rw [if_pos h]
      exact ih
    · rw [if_neg h]
      simpa using h

theorem trimStartLength_le (n : Nat) : trimStartLength a b n ≤ n := by
  induction n with
  | zero => exact Nat.le_refl _
  | succ n ih =>
    rw [trimStartLength]
    split <;> omega

theorem splitsPair_trimStartLength (n : Nat) :
    a.splitsPair (trimStartLength a b n) = false ∧
      b.splitsPair (trimStartLength a b n) = false := by
  induction n with
  | zero => exact ⟨rfl, rfl⟩
  | succ n ih =>
    rw [trimStartLength]
    by_cases h : a.splitsPair (n + 1) || b.splitsPair (n + 1)
    · rw [if_pos h]
      exact ih
    · rw [if_neg h]
      simpa using h

theorem endLength_le : endLength a b ≤ a.length ∧ endLength a b ≤ b.length := by
  have h := trimEndLength_le a b (commonStart a.reverse b.reverse)
  have hc := commonStart_le a.reverse b.reverse
  simp only [List.length_reverse] at hc
  rw [endLength]
  omega

theorem drop_endLength :
    a.drop (a.length - endLength a b) = b.drop (b.length - endLength a b) := by
  have h := take_eq_of_le_commonStart a.reverse b.reverse (trimEndLength_le a b _)
  rw [List.take_reverse, List.take_reverse] at h
  exact List.reverse_injective h

theorem startLength_le : startLength a b ≤ a.length - endLength a b ∧
    startLength a b ≤ b.length - endLength a b := by
  have h := trimStartLength_le a b (commonStart (a.take (a.length - endLength a b))
    (b.take (b.length - endLength a b)))
  have hc := commonStart_le (a.take (a.length - endLength a b)) (b.take (b.length - endLength a b))
  simp only [List.length_take] at hc
  change trimStartLength a b _ ≤ _ ∧ trimStartLength a b _ ≤ _
  omega

theorem take_startLength : a.take (startLength a b) = b.take (startLength a b) := by
  have h := take_eq_of_le_commonStart (a.take (a.length - endLength a b))
    (b.take (b.length - endLength a b)) (trimStartLength_le a b _)
  change (a.take _).take (startLength a b) = (b.take _).take (startLength a b) at h
  have hle := startLength_le a b
  rwa [List.take_take, List.take_take, Nat.min_eq_left hle.1, Nat.min_eq_left hle.2] at h

variable {a b}

theorem trimEndLength_eq {n : Nat} (ha : a.splitsPair (a.length - n) = false)
    (hb : b.splitsPair (b.length - n) = false) : trimEndLength a b n = n := by
  cases n with
  | zero => rfl
  | succ n => rw [trimEndLength, ha, hb, if_neg (by simp)]

theorem trimStartLength_eq {n : Nat} (ha : a.splitsPair n = false) (hb : b.splitsPair n = false) :
    trimStartLength a b n = n := by
  cases n with
  | zero => rfl
  | succ n => rw [trimStartLength, ha, hb, if_neg (by simp)]

theorem mem_edge {x : Match} {previous current length : Nat} :
    x ∈ edge previous current length ↔ 0 < length ∧ x = ⟨previous, current, length⟩ := by
  rw [edge]
  split <;> simp_all

/-- The matches come from the common start, the scan of the middle and the common end. -/
theorem mem_matchesOf {threshold : Nat} {x : Match} (h : x ∈ matchesOf threshold a b) :
    (0 < startLength a b ∧ x = ⟨0, 0, startLength a b⟩) ∨
      (middle a b).Finds threshold (Array.replicate a.length false) (startLength a b) x ∨
      (0 < endLength a b ∧
        x = ⟨a.length - endLength a b, b.length - endLength a b, endLength a b⟩) := by
  simp only [matchesOf, List.mem_append, mem_edge] at h
  rcases h with (h | h) | h
  · exact Or.inl h
  · exact Or.inr (Or.inl ((Middle.scan_spec (by simp [middle])).1 x h))
  · exact Or.inr (Or.inr h)

theorem fits_of_mem_matchesOf {threshold : Nat} {x : Match} (h : x ∈ matchesOf threshold a b) :
    x.Fits a b := by
  have hs := startLength_le a b
  have he := endLength_le a b
  rcases mem_matchesOf h with ⟨hpos, rfl⟩ | hfound | ⟨hpos, rfl⟩
  · refine ⟨hpos, by dsimp only; omega, by dsimp only; omega, ?_⟩
    simpa [Text.segment] using take_startLength a b
  · have hp := hfound.previous_le
    have hc := hfound.current_le
    simp only [middle] at hp hc
    refine ⟨Nat.zero_lt_of_lt hfound.long, by omega, by omega, List.ext_getElem? ?_⟩
    intro k
    simp only [Text.getElem?_segment]
    by_cases hk : k < x.length
    · rw [if_pos hk, if_pos hk]
      simpa [middle] using hfound.units_eq k hk
    · rw [if_neg hk, if_neg hk]
  · refine ⟨hpos, by dsimp only; omega, by dsimp only; omega, ?_⟩
    simp only [Text.segment]
    rw [drop_endLength]

theorem apart_matchesOf (threshold : Nat) (a b : Text) :
    (matchesOf threshold a b).Pairwise Match.Apart := by
  have hs := startLength_le a b
  have hspec : (∀ x ∈ (middle a b).found threshold, (middle a b).Finds threshold
      (Array.replicate a.length false) (startLength a b) x) ∧
      ((middle a b).found threshold).Pairwise Match.Apart := Middle.scan_spec (by simp [middle])
  obtain ⟨hfound, hapart⟩ := hspec
  have hedge (i j n : Nat) : (edge i j n).Pairwise Match.Apart := by
    rw [edge]
    split <;> simp
  simp only [matchesOf, List.pairwise_append, List.mem_append, mem_edge]
  refine ⟨⟨hedge _ _ _, hapart, ?_⟩, hedge _ _ _, ?_⟩
  · rintro x ⟨-, rfl⟩ y hy
    have h := hfound y hy
    have hp := h.previous_ge
    have hc := h.current_ge
    simp only [middle] at hp
    exact ⟨Or.inl (by dsimp only; omega), Or.inl (by dsimp only; omega)⟩
  · rintro x (⟨-, rfl⟩ | hx) y ⟨-, rfl⟩
    · exact ⟨Or.inl (by dsimp only; omega), Or.inl (by dsimp only; omega)⟩
    · have h := hfound x hx
      have hp := h.previous_le
      have hc := h.current_le
      simp only [middle] at hp hc
      exact ⟨Or.inl (by dsimp only; omega), Or.inl (by dsimp only; omega)⟩

/-- Alignments cover both texts and match equal units only. -/
theorem sound_ofTexts (threshold : Nat) (a b : Text) : (ofTexts threshold a b).Sound a b :=
  sound_ofMatches (fun _ h => fits_of_mem_matchesOf h) (apart_matchesOf threshold a b)

theorem sound_compute (threshold : Nat) (a b : Text) : (compute threshold a b).Sound a b :=
  sound_ofTexts (max threshold 1) a b

/-- No match starts or ends between the halves of a surrogate pair. -/
theorem splitsPair_of_mem_matchesOf {threshold : Nat} {x : Match}
    (h : x ∈ matchesOf threshold a b) :
    (a.splitsPair x.previous = false ∧ a.splitsPair (x.previous + x.length) = false) ∧
      b.splitsPair x.current = false ∧ b.splitsPair (x.current + x.length) = false := by
  have he := endLength_le a b
  rcases mem_matchesOf h with ⟨-, rfl⟩ | hfound | ⟨-, rfl⟩
  · have hsplit := splitsPair_trimStartLength a b (commonStart (a.take (a.length - endLength a b))
      (b.take (b.length - endLength a b)))
    simpa [startLength] using hsplit
  · have hend := hfound.splits_end
    have hp := hfound.previous_start
    have hc := hfound.current_start
    simp only [Middle.splits, middle, splitsPairAt_toArray, Bool.or_eq_false_iff] at hend hp hc
    exact ⟨⟨hp, hend.1⟩, hc, hend.2⟩
  · have hsplit := splitsPair_trimEndLength a b (commonStart a.reverse b.reverse)
    refine ⟨⟨hsplit.1, ?_⟩, hsplit.2, ?_⟩
    · exact Text.splitsPair_of_length_le (by dsimp only; omega)
    · exact Text.splitsPair_of_length_le (by dsimp only; omega)

/-- Blocks that split no surrogate pair of a text, brought into order and filled up, split none. -/
theorem splitsPair_of_mem_fill {t : Text} {blocks : List Block}
    (hin : ∀ x ∈ blocks, t.splitsPair x.start = false ∧ t.splitsPair x.stop = false) {x : Block}
    (h : x ∈ Block.fill 0 t.length (blocks.mergeSort fun x y => x.start ≤ y.start)) :
    t.splitsPair x.start = false ∧ t.splitsPair x.stop = false :=
  Block.ends_of_mem_fill (P := fun i => t.splitsPair i = false) rfl
    (Text.splitsPair_of_length_le (Nat.le_refl _)) (fun y hy => hin y (List.mem_mergeSort.mp hy)) h

/-- No block of the previous text starts or ends between the halves of a surrogate pair. -/
theorem splitsPair_ofTexts_previous {threshold : Nat} {x : Block}
    (h : x ∈ (ofTexts threshold a b).previous) :
    a.splitsPair x.start = false ∧ a.splitsPair x.stop = false := by
  refine splitsPair_of_mem_fill (fun y hy => ?_) h
  obtain ⟨i, hi, rfl⟩ := List.mem_mapIdx.mp hy
  exact (splitsPair_of_mem_matchesOf (List.getElem_mem hi)).1

/-- No block of the current text starts or ends between the halves of a surrogate pair. -/
theorem splitsPair_ofTexts {threshold : Nat} {x : Block}
    (h : x ∈ (ofTexts threshold a b).current) :
    b.splitsPair x.start = false ∧ b.splitsPair x.stop = false := by
  refine splitsPair_of_mem_fill (fun y hy => ?_) h
  obtain ⟨i, hi, rfl⟩ := List.mem_mapIdx.mp hy
  exact (splitsPair_of_mem_matchesOf (List.getElem_mem hi)).2

end Alignment
end EditHistory
