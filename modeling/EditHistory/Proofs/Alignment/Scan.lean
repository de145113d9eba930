import EditHistory.Proofs.Alignment.Longest
import EditHistory.Proofs.Alignment.Tiling

/-! What the scan of the middle finds: matches longer than the threshold, of equal units that were
free before, apart from each other, and with no surrogate pair split at their ends. -/
namespace EditHistory
namespace Alignment
namespace Middle

theorem size_markUsed (used : Array Bool) (position n : Nat) :
    (markUsed used position n).size = used.size := by
  induction n generalizing used position with
  | zero => rfl
  | succ n ih => simp [markUsed, ih]

theorem getD_markUsed (used : Array Bool) (position n i : Nat) :
    (markUsed used position n).getD i false =
      (used.getD i false || decide (position ≤ i ∧ i < position + n ∧ i < used.size)) := by
  induction n generalizing used position with
  | zero =>
    have h : ¬ (position ≤ i ∧ i < position + 0 ∧ i < used.size) := by omega
    rw [decide_eq_false h, Bool.or_false, markUsed]
  | succ n ih =>
    simp only [markUsed, ih, Array.size_setIfInBounds]
    by_cases hi : position = i
    · subst hi
      by_cases hs : position < used.size <;> simp [Array.getD, hs]
    · have hiff : (position + 1 ≤ i ∧ i < position + 1 + n ∧ i < used.size) ↔
          (position ≤ i ∧ i < position + (n + 1) ∧ i < used.size) := by omega
      simp only [Array.getD_eq_getD_getElem?, Array.getElem?_setIfInBounds_ne hi, hiff]

variable (m : Middle)

/-- A match that a scan may find from `j` on while some units are in use. -/
structure Finds (threshold : Nat) (used : Array Bool) (j : Nat) (x : Match) : Prop where
  long : threshold < x.length
  previous_ge : m.previousStart ≤ x.previous
  previous_le : x.previous + x.length ≤ m.previousStop
  current_ge : j ≤ x.current
  current_le : x.current + x.length ≤ m.currentStop
  free : ∀ k < x.length, used.getD (x.previous + k) false = false
  units_eq : ∀ k < x.length, m.previous[x.previous + k]? = m.current[x.current + k]?
  previous_start : splitsPairAt m.previous x.previous = false
  current_start : splitsPairAt m.current x.current = false
  splits_end : m.splits x.previous x.current x.length = false

variable {m} {threshold : Nat} {used : Array Bool} {j : Nat}

/-- More units in use and a later start leave less to find. -/
theorem Finds.mono {used' : Array Bool} {j' : Nat} {x : Match} (h : m.Finds threshold used' j' x)
    (hj : j ≤ j') (hused : ∀ i, used'.getD i false = false → used.getD i false = false) :
    m.Finds threshold used j x :=
  { h with
    current_ge := Nat.le_trans hj h.current_ge
    free := fun k hk => hused _ (h.free k hk) }

theorem finds_of_longest {i n : Nat} (hbest : m.longest used j (m.candidates m.index j) = (i, n))
    (h : threshold < n) : m.Finds threshold used j ⟨i, j, n⟩ := by
  have hlongest := m.isLongest_longest used j
  rw [hbest] at hlongest
  have hpos : 0 < n := Nat.zero_lt_of_lt h
  obtain ⟨hmem, ⟨-, hstart⟩, hlength⟩ := hlongest.reached hpos
  obtain ⟨⟨-, hcurrent⟩, hge, -⟩ := mem_candidates_iff.mp hmem
  have hextends : m.Extends used i j (m.extension used i j) := (m.isGreatest_extension used i j).1
  rw [show m.extension used i j = n from hlength] at hextends
  have hagrees (k : Nat) (hk : k < n) := m.agrees_iff.mp (hextends.agrees k hk)
  have hlast := hagrees (n - 1) (by omega)
  exact {
    long := h
    previous_ge := hge
    previous_le := by dsimp only; omega
    current_ge := Nat.le_refl _
    current_le := by dsimp only; omega
    free := fun k hk => (hagrees k hk).2.2.1
    units_eq := fun k hk => (hagrees k hk).2.2.2
    previous_start := hstart
    current_start := hcurrent
    splits_end := hextends.whole hpos }

/-- What is found after a match took its units lies apart from it. -/
theorem Finds.apart {x y : Match} (hsize : used.size = m.previous.size)
    (hx : m.Finds threshold used j x)
    (hy : m.Finds threshold (markUsed used x.previous x.length) (x.current + x.length) y) :
    x.Apart y := by
  refine ⟨?_, Or.inl hy.current_ge⟩
  have hsizele := m.previousStop_le
  have hxle := hx.previous_le
  have hxlong := hx.long
  have hylong := hy.long
  by_contra hover
  -- The offset in `y` of the first position that both ranges contain.
  have hfree := hy.free (x.previous - y.previous) (by omega)
  rw [getD_markUsed, Bool.or_eq_false_iff, decide_eq_false_iff_not] at hfree
  exact hfree.2 (by omega)

theorem scan_spec (hsize : used.size = m.previous.size) :
    (∀ x ∈ m.scan threshold m.index used j, m.Finds threshold used j x) ∧
      (m.scan threshold m.index used j).Pairwise Match.Apart := by
  fun_induction m.scan threshold m.index used j with
  | case1 used j _ i len hbest hlong ih =>
    have hx := finds_of_longest hbest hlong
    obtain ⟨hfinds, hapart⟩ := ih (by rw [size_markUsed, hsize])
    refine ⟨?_, List.pairwise_cons.mpr ⟨?_, hapart⟩⟩
    · intro y hy
      rcases List.mem_cons.mp hy with rfl | hy
      · exact hx
      · refine (hfinds y hy).mono (Nat.le_add_right _ _) ?_
        intro p hp
        rw [getD_markUsed, Bool.or_eq_false_iff] at hp
        exact hp.1
    · intro y hy
      exact hx.apart hsize (hfinds y hy)
  | case2 used j _ i len _ _ ih =>
    obtain ⟨hfinds, hapart⟩ := ih hsize
    exact ⟨fun y hy => (hfinds y hy).mono (Nat.le_succ _) fun _ hp => hp, hapart⟩
  | case3 => simp

end Middle
end Alignment
end EditHistory
