import EditHistory.Proofs.Patch.Between

/-! The two extremes of patches: the empty one, which leads from a text to itself and from no text to
another, and the one that holds a whole text, which leads to it from anywhere. -/
namespace EditHistory

namespace Alignment

variable {a b : Text} {threshold : Nat}

theorem commonStart_self (a : Text) : commonStart a a = a.length := by
  have h := commonStart_append a [] []
  rwa [List.append_nil] at h

theorem trimEndLength_self (a : Text) : trimEndLength a a a.length = a.length :=
  trimEndLength_eq (by rw [Nat.sub_self, Text.splitsPair_zero])
    (by rw [Nat.sub_self, Text.splitsPair_zero])

/-- All of a text is an end that it has in common with itself. -/
theorem endLength_self (a : Text) : endLength a a = a.length := by
  rw [endLength, commonStart_self, List.length_reverse, trimEndLength_self]

theorem matchesOf_self (threshold : Nat) (a : Text) : matchesOf threshold a a = edge 0 0 a.length := by
  have hstart : startLength a a = 0 := by
    have hle := (startLength_le a a).1
    rw [endLength_self] at hle
    omega
  have hfound : (middle a a).found threshold = [] := by
    have hstop : ¬ (middle a a).currentStart < (middle a a).currentStop := by
      change ¬ startLength a a < a.length - endLength a a
      rw [hstart, endLength_self]
      omega
    rw [Middle.found, Middle.scan, if_neg hstop]
  rw [matchesOf, hstart, hfound, endLength_self, Nat.sub_self]
  rfl

/-- A single block that is matched stays in place. -/
theorem getD_stationary_single (n : Nat) :
    Array.getD (stationary ⟨[⟨0, n, some 0⟩], [⟨0, n, some 0⟩], 1⟩) 0 false = true := by
  rw [getD_stationary _ Nat.one_pos, decide_eq_true_eq]
  have hweighted : weighted ⟨[⟨0, n, some 0⟩], [⟨0, n, some 0⟩], 1⟩ =
      [(0, Block.length ⟨0, n, some 0⟩)] := rfl
  rw [stationaryIds, hweighted]
  have hids (s : Survey) (rank length : Nat) : 0 ∈ (s.chainTo rank 0 length).ids := by
    rw [Survey.chainTo]
    split <;> simp
  exact hids _ _ _

theorem ofMatches_single (n : Nat) :
    ofMatches n n [⟨0, 0, n⟩] = ⟨[⟨0, n, some 0⟩], [⟨0, n, some 0⟩], 1⟩ := by
  simp [ofMatches, Match.previousBlock, Match.currentBlock, Block.fill, Block.gap]

theorem ofMatches_nil_zero : ofMatches 0 0 [] = ⟨[], [], 0⟩ := by
  simp [ofMatches, Block.fill, Block.gap]

theorem edits_self (threshold : Nat) (a : Text) : (ofTexts threshold a a).edits a = [] := by
  rw [edits_eq, ofTexts, matchesOf_self, edge]
  by_cases hpos : 0 < a.length
  · have hstays : stays ⟨[⟨0, a.length, some 0⟩], [⟨0, a.length, some 0⟩], 1⟩
        ⟨0, a.length, some 0⟩ := getD_stationary_single a.length
    rw [if_pos hpos, ofMatches_single, editsFrom, if_pos hstays, if_pos hstays, editsFrom]
  · rw [if_neg hpos, Nat.eq_zero_of_not_pos hpos, ofMatches_nil_zero, editsFrom]

end Alignment

namespace Patch

/-- The patch between two texts is empty where they are equal, and only there. -/
theorem between_eq_nil_iff {threshold : Nat} {a b : Text} : between threshold a b = [] ↔ a = b := by
  constructor
  · intro h
    have happly : (between threshold a b).apply a = .ok b :=
      (Alignment.sound_compute threshold a b).apply_edits
    have hself : (between threshold a a).apply a = .ok a :=
      (Alignment.sound_compute threshold a a).apply_edits
    have hnil : between threshold a a = [] := Alignment.edits_self (max threshold 1) a
    rw [hnil] at hself
    rw [h, hself] at happly
    exact Except.ok.inj happly
  · rintro rfl
    exact Alignment.edits_self (max threshold 1) a

/-- A whole text replaces whatever there was. -/
theorem apply_full (text base : Text) : Patch.apply [.full text] base = .ok text := by
  have hfinish : Rebuild.finish base.toArray ⟨base.toArray.size, text.toArray⟩ = text := by
    simp [Rebuild.finish, Rebuild.copyTo]
  exact congrArg Except.ok hfinish

/-- No patch between two texts starts with a whole text. -/
theorem isFull_between (threshold : Nat) (a b : Text) :
    (between threshold a b).head?.any Edit.isFull = false := by
  cases h : between threshold a b with
  | nil => rfl
  | cons e rest =>
    have he : e ∈ between threshold a b := h ▸ List.mem_cons_self
    exact (Alignment.comes_of_mem_editsFrom e he).isFull_eq_false

end Patch
end EditHistory
