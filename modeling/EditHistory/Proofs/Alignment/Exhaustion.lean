import EditHistory.Proofs.Alignment.Partition

/-! What the search leaves unmatched holds nothing more to match. Where the scan could still find a
match, a match that it did find is in the way, so that no two gaps share a run of units longer than
the threshold, surrogate pairs left whole. -/
namespace EditHistory

namespace Block

theorem mem_fill_of_mem {start stop : Nat} {blocks : List Block} {x : Block} (h : x ∈ blocks) :
    x ∈ fill start stop blocks := by
  induction blocks generalizing start with
  | nil => simp at h
  | cons y rest ih =>
    refine List.mem_append_right _ ?_
    rcases List.mem_cons.mp h with rfl | h
    · exact List.mem_cons_self
    · exact List.mem_cons_of_mem _ (ih h)

/-- A position is covered once. -/
theorem eq_of_mem_tile {start stop p : Nat} {blocks : List Block} (h : Tile start stop blocks)
    {x y : Block} (hx : x ∈ blocks) (hy : y ∈ blocks) (hpx : x.start ≤ p ∧ p < x.stop)
    (hpy : y.start ≤ p ∧ p < y.stop) : x = y := by
  induction blocks generalizing start with
  | nil => simp at hx
  | cons z rest ih =>
    obtain ⟨-, -, hrest⟩ := h
    rcases List.mem_cons.mp hx with rfl | hx'
    · rcases List.mem_cons.mp hy with rfl | hy'
      · rfl
      · have := (tile_bounds hrest hy').1
        omega
    · rcases List.mem_cons.mp hy with rfl | hy'
      · have := (tile_bounds hrest hx').1
        omega
      · exact ih hrest hx' hy'

end Block

namespace Alignment
namespace Middle

variable {m : Middle} {threshold : Nat} {used : Array Bool} {i j n : Nat}

/-- At the place of a match that could be found the scan finds one at least as long. -/
theorem length_le_longest {y : Match} (h : m.Finds threshold used j y) (hj : y.current = j) :
    y.length ≤ (m.longest used j (m.candidates m.index j)).2 := by
  subst hj
  have hpos : 0 < y.length := Nat.zero_lt_of_lt h.long
  have hprevious := h.previous_le
  have hcurrent := h.current_le
  have hextends : m.Extends used y.previous y.current y.length :=
    ⟨fun k hk => m.agrees_iff.mpr ⟨by omega, by omega, h.free k hk, h.units_eq k hk⟩,
      fun _ => h.splits_end⟩
  have hcandidate : y.previous ∈ m.candidates m.index y.current :=
    mem_candidates_iff.mpr
      ⟨⟨by omega, h.current_start⟩, h.previous_ge, by omega, h.units_eq 0 hpos⟩
  refine Nat.le_trans ((m.isGreatest_extension used y.previous y.current).2 hextends) ?_
  exact (m.isLongest_longest used y.current).most _ hcandidate ⟨h.free 0 hpos, h.previous_start⟩

/-- A match takes a unit of the previous text or the first unit of the current text that another one
needs. -/
def Blocks (x y : Match) : Prop :=
  (∃ k < y.length, x.previous ≤ y.previous + k ∧ y.previous + k < x.previous + x.length) ∨
    (x.current ≤ y.current ∧ y.current < x.current + x.length)

/-- Whatever could be found, something that is found is in its way. -/
theorem exists_blocks_of_finds {y : Match} (h : m.Finds threshold used j y) :
    ∃ x ∈ m.scan threshold m.index used j, Blocks x y := by
  fun_induction m.scan threshold m.index used j with
  | case1 used j _ i len hbest hlong ih =>
    by_cases hblocks : Blocks ⟨i, j, len⟩ y
    · exact ⟨_, List.mem_cons_self, hblocks⟩
    · simp only [Blocks, not_or, not_exists, not_and, Nat.not_lt] at hblocks
      obtain ⟨x, hx, hxy⟩ := ih
        { h with
          current_ge := hblocks.2 h.current_ge
          free := by
            intro k hk
            rw [getD_markUsed, h.free k hk, Bool.false_or, decide_eq_false_iff_not]
            have := hblocks.1 k hk
            omega }
      exact ⟨x, List.mem_cons_of_mem _ hx, hxy⟩
  | case2 used j _ i len hbest hshort ih =>
    refine ih { h with current_ge := Nat.succ_le_of_lt (Nat.lt_of_le_of_ne h.current_ge ?_) }
    intro hj
    have hlength := length_le_longest h hj.symm
    rw [hbest] at hlength
    exact hshort (Nat.lt_of_lt_of_le h.long hlength)
  | case3 used j hstop =>
    have hlong := h.long
    have hge := h.current_ge
    have hle := h.current_le
    omega

end Middle

/-! ## The gaps -/

variable {found : List Match} {stop p : Nat} {x : Block} {m : Match}

/-- No match takes a position of a gap. -/
theorem not_taken_of_mem_fill (side : Match → Nat → Block) (hid : ∀ m id, (side m id).id = some id)
    (htile : Block.Tile 0 stop (Block.fill 0 stop
      ((found.mapIdx fun id m => side m id).mergeSort fun x y => x.start ≤ y.start)))
    (hx : x ∈ Block.fill 0 stop
      ((found.mapIdx fun id m => side m id).mergeSort fun x y => x.start ≤ y.start))
    (hgap : x.id = none) (hm : m ∈ found) (hp : x.start ≤ p ∧ p < x.stop) :
    ∃ id, ¬ ((side m id).start ≤ p ∧ p < (side m id).stop) := by
  obtain ⟨id, hlt, rfl⟩ := List.mem_iff_getElem.mp hm
  refine ⟨id, fun htaken => ?_⟩
  have hside : side found[id] id ∈ found.mapIdx fun id m => side m id :=
    List.mem_mapIdx.mpr ⟨id, hlt, rfl⟩
  have hboth := Block.eq_of_mem_tile htile hx
    (Block.mem_fill_of_mem (List.mem_mergeSort.mpr hside)) hp htaken
  rw [hboth, hid] at hgap
  cases hgap

end Alignment

namespace Match

/-- Neither range of a match starts or ends between the halves of a surrogate pair. -/
structure IsWhole (m : Match) (a b : Text) : Prop where
  previous_start : a.splitsPair m.previous = false
  previous_stop : a.splitsPair (m.previous + m.length) = false
  current_start : b.splitsPair m.current = false
  current_stop : b.splitsPair (m.current + m.length) = false

/-- The ranges of a match lie in two blocks. -/
structure Within (m : Match) (x y : Block) : Prop where
  previous_start : x.start ≤ m.previous
  previous_stop : m.previous + m.length ≤ x.stop
  current_start : y.start ≤ m.current
  current_stop : m.current + m.length ≤ y.stop

end Match

namespace Alignment

variable {threshold : Nat} {a b : Text} {x y : Block} {m : Match}

/-- Two gaps have no match longer than a threshold in common that leaves all surrogate pairs whole. -/
def Exhausts (threshold : Nat) (al : Alignment) (a b : Text) : Prop :=
  ∀ x ∈ al.previous, ∀ y ∈ al.current, x.id = none → y.id = none →
    ∀ m : Match, m.Fits a b → m.IsWhole a b → m.Within x y → m.length ≤ threshold

theorem start_mem_matchesOf (h : 0 < startLength a b) :
    ⟨0, 0, startLength a b⟩ ∈ matchesOf threshold a b := by
  simp [matchesOf, mem_edge, h]

theorem end_mem_matchesOf (h : 0 < endLength a b) :
    ⟨a.length - endLength a b, b.length - endLength a b, endLength a b⟩ ∈ matchesOf threshold a b := by
  simp [matchesOf, mem_edge, h]

theorem found_subset_matchesOf :
    (middle a b).found threshold ⊆ matchesOf threshold a b := by
  intro z hz
  simp [matchesOf, hz]

/-- A match that takes nothing that is taken lies between the common start and the common end, where
the scan could find it. -/
theorem finds_of_untaken (hfits : m.Fits a b) (hwhole : m.IsWhole a b) (hlong : threshold < m.length)
    (hprevious : ∀ z ∈ matchesOf threshold a b, ∀ k < m.length,
      ¬ (z.previous ≤ m.previous + k ∧ m.previous + k < z.previous + z.length))
    (hcurrent : ∀ z ∈ matchesOf threshold a b, ∀ k < m.length,
      ¬ (z.current ≤ m.current + k ∧ m.current + k < z.current + z.length)) :
    (middle a b).Finds threshold (Array.replicate a.length false) (startLength a b) m := by
  have hpos := hfits.pos
  have hple := hfits.previous_le
  have hcle := hfits.current_le
  have hfirst (h : 0 < startLength a b) : startLength a b ≤ m.previous ∧ startLength a b ≤ m.current := by
    have hp := hprevious _ (start_mem_matchesOf h) 0 hpos
    have hc := hcurrent _ (start_mem_matchesOf h) 0 hpos
    dsimp only at hp hc
    omega
  have hlast (h : 0 < endLength a b) : m.previous + m.length ≤ a.length - endLength a b ∧
      m.current + m.length ≤ b.length - endLength a b := by
    have hp := hprevious _ (end_mem_matchesOf h) (m.length - 1) (by omega)
    have hc := hcurrent _ (end_mem_matchesOf h) (m.length - 1) (by omega)
    dsimp only at hp hc
    omega
  exact {
    long := hlong
    previous_ge := by dsimp only [middle]; omega
    previous_le := by dsimp only [middle]; omega
    current_ge := by omega
    current_le := by dsimp only [middle]; omega
    free := by simp [Array.getD]
    units_eq := by
      intro k hk
      have hunits := congrArg (·[k]?) hfits.units_eq
      simpa [middle, Text.getElem?_segment, hk] using hunits
    previous_start := by rw [middle, splitsPairAt_toArray, hwhole.previous_start]
    current_start := by rw [middle, splitsPairAt_toArray, hwhole.current_start]
    splits_end := by
      rw [Middle.splits, middle, splitsPairAt_toArray, splitsPairAt_toArray, hwhole.previous_stop,
        hwhole.current_stop]
      rfl }

/-- The matches of a search leave nothing to match, whatever its threshold. -/
theorem exhausts_ofMatches (threshold : Nat) (a b : Text) :
    (ofMatches a.length b.length (matchesOf threshold a b)).Exhausts threshold a b := by
  intro x hx y hy hxgap hygap m hfits hwhole hwithin
  have hsound : (ofMatches a.length b.length (matchesOf threshold a b)).Sound a b :=
    sound_ofMatches (fun _ h => fits_of_mem_matchesOf h) (apart_matchesOf threshold a b)
  obtain ⟨hpstart, hpstop, hcstart, hcstop⟩ := hwithin
  have hprevious : ∀ z ∈ matchesOf threshold a b, ∀ k < m.length,
      ¬ (z.previous ≤ m.previous + k ∧ m.previous + k < z.previous + z.length) := by
    intro z hz k hk
    obtain ⟨id, hfree⟩ := not_taken_of_mem_fill Match.previousBlock (fun _ _ => rfl)
      hsound.previous_tile hx hxgap hz (p := m.previous + k) (by omega)
    exact hfree
  have hcurrent : ∀ z ∈ matchesOf threshold a b, ∀ k < m.length,
      ¬ (z.current ≤ m.current + k ∧ m.current + k < z.current + z.length) := by
    intro z hz k hk
    obtain ⟨id, hfree⟩ := not_taken_of_mem_fill Match.currentBlock (fun _ _ => rfl)
      hsound.current_tile hy hygap hz (p := m.current + k) (by omega)
    exact hfree
  refine Nat.le_of_not_lt fun hlong => ?_
  have hfinds := finds_of_untaken hfits hwhole hlong hprevious hcurrent
  obtain ⟨z, hz, hblocks⟩ := Middle.exists_blocks_of_finds hfinds
  rcases hblocks with ⟨k, hk, htaken⟩ | htaken
  · exact hprevious z (found_subset_matchesOf hz) k hk htaken
  · exact hcurrent z (found_subset_matchesOf hz) 0 hfits.pos htaken

/-- Alignments leave nothing to match that is longer than the threshold their matches were searched
with. The threshold that is asked for is that one, except that below one it counts as one. -/
theorem exhausts_compute (threshold : Nat) (previous current : Text) :
    (ofMatches previous.length current.length (matchesOf threshold previous current)).Exhausts threshold
        previous current ∧
      (compute threshold previous current).Exhausts (max threshold 1) previous current :=
  ⟨exhausts_ofMatches threshold previous current, exhausts_ofMatches (max threshold 1) previous current⟩

/-- Two gaps that are the whole of two equal texts leave something to match. -/
example : ¬ Exhausts 1 ⟨[⟨0, 2, none⟩], [⟨0, 2, none⟩], 0⟩ [0x61, 0x62] [0x61, 0x62] := by
  intro h
  have hle := h ⟨0, 2, none⟩ (by simp) ⟨0, 2, none⟩ (by simp) rfl rfl ⟨0, 0, 2⟩
    ⟨by decide, by decide, by decide, rfl⟩ ⟨rfl, rfl, rfl, rfl⟩
    ⟨by decide, by decide, by decide, by decide⟩
  exact absurd hle (by decide)

end Alignment
end EditHistory
