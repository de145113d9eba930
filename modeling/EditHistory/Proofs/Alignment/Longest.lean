import EditHistory.Alignment.Search
import Mathlib.Order.Bounds.Defs

/-! The search for the longest extension skips candidates, and loses nothing by it. A candidate that does
not agree just behind the best length so far has an extension no longer than that, so that the search ends
with the same candidate as one that measures them all: the earliest of those with the longest extension. -/
namespace EditHistory
namespace Alignment
namespace Middle

variable (m : Middle)

/-- A candidate that is not in use and does not stand between the halves of a pair. -/
def IsOpen (used : Array Bool) (i : Nat) : Prop :=
  used.getD i false = false ∧ splitsPairAt m.previous i = false

/-- Tries a candidate as `consider` does, and measures it whatever stands behind the best length. -/
def measure (used : Array Bool) (j : Nat) (best : Best) (i : Nat) : Best :=
  if used.getD i false || splitsPairAt m.previous i then best
  else if best.2 < m.extension used i j then (i, m.extension used i j) else best

/-- The search that measures every open candidate. -/
def longestMeasured (used : Array Bool) (j : Nat) (candidates : List Nat) : Best :=
  candidates.foldl (m.measure used j) (0, 0)

/-- A match of `n` units can be made at two positions. -/
structure Extends (used : Array Bool) (i j n : Nat) : Prop where
  agrees : ∀ k < n, m.agrees used (i + k) (j + k)
  whole : 0 < n → m.splits i j n = false

/-- The length of the longest extension over some candidates, and the first candidate that has it; zero
twice where no open candidate has any. -/
structure IsLongest (used : Array Bool) (j : Nat) (candidates : List Nat) (best : Best) : Prop where
  most : ∀ i ∈ candidates, m.IsOpen used i → m.extension used i j ≤ best.2
  reached : 0 < best.2 →
    best.1 ∈ candidates ∧ m.IsOpen used best.1 ∧ m.extension used best.1 j = best.2
  earliest : 0 < best.2 →
    ∀ i ∈ candidates, m.IsOpen used i → m.extension used i j = best.2 → best.1 ≤ i
  nothing : best.2 = 0 → best.1 = 0

/-! ## Lengths -/

theorem agrees_iff {used : Array Bool} {i j : Nat} :
    m.agrees used i j ↔ i < m.previousStop ∧ j < m.currentStop ∧ used.getD i false = false ∧
      m.previous[i]? = m.current[j]? := by
  rw [agrees]
  have hp := m.previousStop_le
  have hc := m.currentStop_le
  by_cases h : i < m.previousStop ∧ j < m.currentStop
  · have hi : i < m.previous.size := by omega
    have hj : j < m.current.size := by omega
    simp [h, Array.getElem?_eq_getElem hi, Array.getElem?_eq_getElem hj]
  · rw [dif_neg h]
    simp only [Bool.false_eq_true, false_iff]
    exact fun hall => h ⟨hall.1, hall.2.1⟩

theorem agrees_of_lt_run {used : Array Bool} {i j k : Nat} (h : k < m.run used i j) :
    m.agrees used (i + k) (j + k) := by
  fun_induction m.run used i j generalizing k with
  | case1 i j ha hlt ih =>
    cases k with
    | zero => exact ha
    | succ k =>
      have := ih (k := k) (by omega)
      simpa [Nat.add_assoc, Nat.add_comm, Nat.add_left_comm] using this
  | case2 => omega

theorem trimmed_le (i j n : Nat) : m.trimmed i j n ≤ n := by
  induction n with
  | zero => exact Nat.le_refl _
  | succ n ih =>
    rw [trimmed]
    split <;> omega

theorem splits_trimmed {i j n : Nat} (h : 0 < m.trimmed i j n) :
    m.splits i j (m.trimmed i j n) = false := by
  induction n with
  | zero => simp [trimmed] at h
  | succ n ih =>
    rw [trimmed] at h ⊢
    by_cases hs : m.splits i j (n + 1) = true
    · rw [if_pos hs] at h ⊢
      exact ih h
    · rw [if_neg hs]
      simpa using hs

variable {m} {used : Array Bool} {i j n : Nat} {best : Best} {candidates : List Nat}

theorem le_run (h : ∀ k < n, m.agrees used (i + k) (j + k)) : n ≤ m.run used i j := by
  induction n generalizing i j with
  | zero => exact Nat.zero_le _
  | succ n ih =>
    have hfirst : m.agrees used i j := h 0 (Nat.zero_lt_succ n)
    have hrest : n ≤ m.run used (i + 1) (j + 1) := by
      refine ih fun k hk => ?_
      rw [Nat.add_right_comm i, Nat.add_right_comm j]
      exact h (k + 1) (Nat.succ_lt_succ hk)
    rw [run, dif_pos hfirst]
    exact Nat.succ_le_succ hrest

/-- A part of a run that ends at no split pair survives the trimming. -/
theorem le_trimmed {length : Nat} (hsplits : m.splits i j n = false) (h : n ≤ length) :
    n ≤ m.trimmed i j length := by
  induction length with
  | zero => exact h
  | succ length ih =>
    rw [trimmed]
    split
    · rename_i hlast
      refine ih (Nat.le_of_lt_succ (Nat.lt_of_le_of_ne h ?_))
      rintro rfl
      exact Bool.false_ne_true (hsplits.symm.trans hlast)
    · exact h

/-- A candidate that does not agree behind the best length does no better. -/
theorem extension_le_of_not_agrees (h : ¬ m.agrees used (i + n) (j + n)) :
    m.extension used i j ≤ n := by
  refine Nat.le_of_not_lt fun hlt => h ?_
  exact m.agrees_of_lt_run (Nat.lt_of_lt_of_le hlt (m.trimmed_le i j _))

/-- An extension is the longest match that can be made. -/
theorem isGreatest_extension (m : Middle) (used : Array Bool) (i j : Nat) :
    IsGreatest {n | m.Extends used i j n} (m.extension used i j) := by
  refine ⟨⟨fun k hk => ?_, fun hpos => m.splits_trimmed hpos⟩, fun n h => ?_⟩
  · exact m.agrees_of_lt_run (Nat.lt_of_lt_of_le hk (m.trimmed_le i j _))
  · cases n with
    | zero => exact Nat.zero_le _
    | succ n => exact le_trimmed (h.whole (Nat.succ_pos n)) (le_run h.agrees)

/-- What is skipped would not have been taken. -/
theorem consider_eq_measure (m : Middle) (used : Array Bool) (j : Nat) :
    m.consider used j = m.measure used j := by
  funext best i
  rw [consider, measure]
  split
  · rfl
  · split
    · rename_i hpruned
      simp only [Bool.and_eq_true, Bool.not_eq_true'] at hpruned
      have hle := extension_le_of_not_agrees (ne_true_of_eq_false hpruned.2)
      exact (if_neg (Nat.not_lt.mpr hle)).symm
    · rfl

theorem longest_eq_longestMeasured (m : Middle) (used : Array Bool) (j : Nat) (candidates : List Nat) :
    m.longest used j candidates = m.longestMeasured used j candidates := by
  rw [longest, longestMeasured, consider_eq_measure]

/-! ## Candidates -/

theorem mem_indexOf {position i : Nat} {units : List UInt16} {u : UInt16} :
    i ∈ (indexOf position units).getD u [] ↔ position ≤ i ∧ units[i - position]? = some u := by
  induction units generalizing position with
  | nil => simp [indexOf]
  | cons v rest ih =>
    simp only [indexOf, Std.HashMap.getD_insert]
    have hstep (hlt : position < i) : (v :: rest)[i - position]? = rest[i - (position + 1)]? := by
      rw [show i - position = i - (position + 1) + 1 by omega, List.getElem?_cons_succ]
    rcases Nat.lt_trichotomy i position with hlt | rfl | hlt
    · by_cases hv : v = u
      · subst hv
        simp [ih, Nat.ne_of_lt hlt]
        omega
      · simp [hv, ih]
        omega
    · by_cases hv : v = u
      · subst hv
        simp
      · simp only [hv, beq_iff_eq, if_false, ih]
        have h₁ : ¬ i + 1 ≤ i := Nat.not_succ_le_self i
        simp [h₁, hv]
    · by_cases hv : v = u
      · subst hv
        simp [ih, hstep hlt, Nat.ne_of_gt hlt, Nat.le_of_lt hlt, Nat.succ_le_of_lt hlt]
      · simp [hv, ih, hstep hlt, Nat.le_of_lt hlt, Nat.succ_le_of_lt hlt]

theorem pairwise_indexOf (position : Nat) (units : List UInt16) (u : UInt16) :
    ((indexOf position units).getD u []).Pairwise (· < ·) := by
  induction units generalizing position with
  | nil => simp [indexOf]
  | cons v rest ih =>
    rw [indexOf, Std.HashMap.getD_insert]
    split
    · rename_i hv
      obtain rfl := eq_of_beq hv
      exact List.pairwise_cons.mpr ⟨fun i hi => (mem_indexOf.mp hi).1, ih (position + 1)⟩
    · exact ih (position + 1)

theorem pairwise_candidates (m : Middle) (j : Nat) : (m.candidates m.index j).Pairwise (· < ·) := by
  rw [Middle.candidates]
  split
  · split
    · exact .nil
    · exact pairwise_indexOf _ _ _
  · exact .nil

/-- The candidates are the positions of the middle that hold the unit to start with. -/
theorem mem_candidates_iff :
    i ∈ m.candidates m.index j ↔
      (j < m.currentStop ∧ splitsPairAt m.current j = false) ∧
        m.previousStart ≤ i ∧ i < m.previousStop ∧ m.previous[i]? = m.current[j]? := by
  have hprevious := m.previousStop_le
  rw [candidates]
  split
  · rename_i hj
    have hcurrent : j < m.current.size := Nat.lt_of_lt_of_le hj m.currentStop_le
    cases hstart : splitsPairAt m.current j with
    | true => simp
    | false =>
      simp only [hj, Bool.false_eq_true, if_false, true_and]
      rw [index, mem_indexOf]
      refine and_congr_right fun hge => ?_
      rw [Array.getElem?_toList, Array.getElem?_extract, Nat.add_sub_cancel' hge,
        Array.getElem?_eq_getElem hcurrent]
      split
      · rename_i hlt
        have hin : i < m.previousStop := by omega
        rw [and_iff_right hin]
      · rename_i hout
        have hbehind : ¬ i < m.previousStop := by omega
        simp [hbehind]
  · rename_i hj
    simp [hj]

/-! ## The search -/

/-- One more candidate that is no better. -/
theorem IsLongest.keep (h : m.IsLongest used j candidates best) (hlast : ∀ x ∈ candidates, x < i)
    (hworse : m.IsOpen used i → m.extension used i j ≤ best.2) :
    m.IsLongest used j (candidates ++ [i]) best where
  most x hx hopen := by
    rcases List.mem_append.mp hx with hx | hx
    · exact h.most x hx hopen
    · obtain rfl := List.mem_singleton.mp hx
      exact hworse hopen
  reached hpos := (h.reached hpos).imp_left (List.mem_append_left [i])
  earliest hpos x hx hopen heq := by
    rcases List.mem_append.mp hx with hx | hx
    · exact h.earliest hpos x hx hopen heq
    · obtain rfl := List.mem_singleton.mp hx
      exact Nat.le_of_lt (hlast _ (h.reached hpos).1)
  nothing := h.nothing

/-- One more candidate that is better than all before it. -/
theorem IsLongest.take (h : m.IsLongest used j candidates best) (hopen : m.IsOpen used i)
    (hbetter : best.2 < m.extension used i j) :
    m.IsLongest used j (candidates ++ [i]) (i, m.extension used i j) where
  most x hx hx' := by
    rcases List.mem_append.mp hx with hx | hx
    · exact Nat.le_of_lt (Nat.lt_of_le_of_lt (h.most x hx hx') hbetter)
    · obtain rfl := List.mem_singleton.mp hx
      exact Nat.le_refl _
  reached _ := ⟨List.mem_append_right _ List.mem_cons_self, hopen, rfl⟩
  earliest _ x hx hx' heq := by
    rcases List.mem_append.mp hx with hx | hx
    · have hle := h.most x hx hx'
      rw [heq] at hle
      exact absurd hle (Nat.not_le.mpr hbetter)
    · exact Nat.le_of_eq (List.mem_singleton.mp hx).symm
  nothing hzero := absurd hbetter (by dsimp only at hzero; omega)

theorem IsLongest.measure (h : m.IsLongest used j candidates best) (hlast : ∀ x ∈ candidates, x < i) :
    m.IsLongest used j (candidates ++ [i]) (m.measure used j best i) := by
  rw [Middle.measure]
  split
  · rename_i hclosed
    refine h.keep hlast ?_
    rintro ⟨hfree, hwhole⟩
    simp [hfree, hwhole] at hclosed
  · rename_i hopen
    split
    · rename_i hbetter
      exact h.take (by simpa [IsOpen] using hopen) hbetter
    · rename_i hworse
      exact h.keep hlast fun _ => Nat.le_of_not_lt hworse

theorem isLongest_foldl {seen : List Nat} (h : m.IsLongest used j seen best)
    (hascending : (seen ++ candidates).Pairwise (· < ·)) :
    m.IsLongest used j (seen ++ candidates) (candidates.foldl (m.measure used j) best) := by
  induction candidates generalizing seen best with
  | nil => simpa using h
  | cons i rest ih =>
    have hlast : ∀ x ∈ seen, x < i := fun x hx =>
      (List.pairwise_append.mp hascending).2.2 x hx i List.mem_cons_self
    have hrest := ih (h.measure hlast) (by simpa using hascending)
    simpa using hrest

theorem isLongest_longestMeasured (m : Middle) (used : Array Bool) (j : Nat)
    (hascending : candidates.Pairwise (· < ·)) :
    m.IsLongest used j candidates (m.longestMeasured used j candidates) := by
  have hstart : m.IsLongest used j [] (0, 0) := ⟨nofun, nofun, nofun, fun _ => rfl⟩
  exact isLongest_foldl hstart hascending

/-- The search finds the longest extension over the candidates for a match. -/
theorem isLongest_longest (m : Middle) (used : Array Bool) (j : Nat) :
    m.IsLongest used j (m.candidates m.index j) (m.longest used j (m.candidates m.index j)) := by
  rw [longest_eq_longestMeasured]
  exact m.isLongest_longestMeasured used j (m.pairwise_candidates j)

/-- Skipping candidates loses nothing. Whatever is in use, the search finds what it would find by measuring
every candidate: of the positions with the unit at `j`, in ascending order, the first open one with the
longest extension, the longest match that can be made there. -/
theorem longest_lossless (m : Middle) (used : Array Bool) {j : Nat} (hj : j < m.currentStop)
    (hstart : splitsPairAt m.current j = false) :
    (m.candidates m.index j).Pairwise (· < ·) ∧
    (∀ i, i ∈ m.candidates m.index j ↔
      m.previousStart ≤ i ∧ i < m.previousStop ∧ m.previous[i]? = m.current[j]?) ∧
    m.longest used j (m.candidates m.index j) = m.longestMeasured used j (m.candidates m.index j) ∧
    m.IsLongest used j (m.candidates m.index j) (m.longest used j (m.candidates m.index j)) ∧
    ∀ i, IsGreatest {n | m.Extends used i j n} (m.extension used i j) := by
  refine ⟨m.pairwise_candidates j, fun i => ?_, m.longest_eq_longestMeasured used j _,
    m.isLongest_longest used j, fun i => m.isGreatest_extension used i j⟩
  rw [mem_candidates_iff, and_iff_right ⟨hj, hstart⟩]

/-- A text in which a beginning comes back three times, the second and the third time longer. -/
def recurring : Middle where
  previous := #[1, 2, 9, 1, 2, 3, 1, 2, 3]
  current := #[1, 2, 3]
  previousStart := 0
  previousStop := 9
  currentStart := 0
  currentStop := 3
  previousStop_le := by decide
  currentStop_le := by decide

/-- The second one is found; the third one is as long, and comes later. -/
theorem longest_lossless_recurring :
    0 < recurring.currentStop ∧ splitsPairAt recurring.current 0 = false ∧
    recurring.longest #[] 0 (recurring.candidates recurring.index 0) = (3, 3) ∧
    recurring.longestMeasured #[] 0 (recurring.candidates recurring.index 0) = (3, 3) ∧
    recurring.IsLongest #[] 0 (recurring.candidates recurring.index 0) (3, 3) :=
  have hj : 0 < recurring.currentStop := by decide
  have hstart : splitsPairAt recurring.current 0 = false := by decide
  have hcandidates : recurring.candidates recurring.index 0 = [0, 3, 6] := by cbv
  have hfound : recurring.longest #[] 0 (recurring.candidates recurring.index 0) = (3, 3) := by
    rw [hcandidates]
    decide +kernel
  have h := longest_lossless recurring #[] hj hstart
  ⟨hj, hstart, hfound, h.2.2.1.symm.trans hfound, hfound ▸ h.2.2.2.1⟩

end Middle
end Alignment
end EditHistory
