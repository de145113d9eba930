import EditHistory.Alignment.Block
import EditHistory.Proofs.Sum
import EditHistory.Proofs.Text.Segment
import Mathlib.Data.List.Perm.Basic

/-! Blocks that cover a range. Matches that lie apart lead to two lists of blocks that cover the
two texts; in each of them every number of a match stands exactly once. -/
namespace EditHistory
namespace Block

theorem start_add_length {b : Block} (h : b.start < b.stop) : b.start + b.length = b.stop := by
  rw [length]
  omega

theorem length_units {b : Block} {t : Text} (h : b.start < b.stop) (hle : b.stop ≤ t.length) :
    (b.units t).length = b.length := by
  have := start_add_length h
  exact Text.length_segment (by omega)

/-- Non-empty blocks in order that cover the range from `start` to `stop`. -/
def Tile : Nat → Nat → List Block → Prop
  | start, stop, [] => start = stop
  | start, stop, b :: rest => b.start = start ∧ b.start < b.stop ∧ Tile b.stop stop rest

def Apart (x y : Block) : Prop := x.stop ≤ y.start ∨ y.stop ≤ x.start

theorem Apart.symm {x y : Block} (h : Apart x y) : Apart y x := Or.symm h

/-- Nothing of a covered range is left behind its blocks. -/
theorem le_of_tile {start stop : Nat} {blocks : List Block} (h : Tile start stop blocks) :
    start ≤ stop := by
  induction blocks generalizing start with
  | nil => exact Nat.le_of_eq h
  | cons b rest ih =>
    obtain ⟨rfl, hlt, hrest⟩ := h
    exact Nat.le_trans (Nat.le_of_lt hlt) (ih hrest)

theorem tile_bounds {start stop : Nat} {blocks : List Block} (h : Tile start stop blocks)
    {b : Block} (hb : b ∈ blocks) : start ≤ b.start ∧ b.start < b.stop ∧ b.stop ≤ stop := by
  induction blocks generalizing start with
  | nil => simp at hb
  | cons c rest ih =>
    obtain ⟨rfl, hlt, hrest⟩ := h
    rcases List.mem_cons.mp hb with rfl | hb
    · exact ⟨Nat.le_refl _, hlt, le_of_tile hrest⟩
    · have := ih hrest hb
      omega

/-- The blocks of a cover lie one behind the other. -/
theorem pairwise_of_tile {start stop : Nat} {blocks : List Block} (h : Tile start stop blocks) :
    blocks.Pairwise fun x y => x.start < x.stop ∧ x.stop ≤ y.start := by
  induction blocks generalizing start with
  | nil => exact .nil
  | cons b rest ih =>
    obtain ⟨-, hlt, hrest⟩ := h
    exact .cons (fun y hy => ⟨hlt, (tile_bounds hrest hy).1⟩) (ih hrest)

/-- The blocks of a cover are as long in total as what they cover. -/
theorem sumOf_length_of_tile {start stop : Nat} {blocks : List Block} (h : Tile start stop blocks) :
    start + sumOf length blocks = stop := by
  induction blocks generalizing start with
  | nil => exact h
  | cons b rest ih =>
    obtain ⟨rfl, hlt, hrest⟩ := h
    rw [sumOf_cons, ← Nat.add_assoc, start_add_length hlt]
    exact ih hrest

/-- A gap brings the cover up to the block behind it. -/
theorem tile_gap_append {start middle stop : Nat} {blocks : List Block} (hle : start ≤ middle)
    (h : Tile middle stop blocks) : Tile start stop (gap start middle ++ blocks) := by
  by_cases hlt : start < middle
  · rw [gap, if_pos hlt]
    exact ⟨rfl, hlt, h⟩
  · have heq : start = middle := by omega
    subst heq
    rw [gap, if_neg hlt]
    exact h

theorem tile_fill {start stop : Nat} {blocks : List Block} (hle : start ≤ stop)
    (hin : ∀ b ∈ blocks, start ≤ b.start ∧ b.start < b.stop ∧ b.stop ≤ stop)
    (hord : blocks.Pairwise fun x y => x.stop ≤ y.start) :
    Tile start stop (fill start stop blocks) := by
  induction blocks generalizing start with
  | nil =>
    have h : Tile start stop (gap start stop ++ []) := tile_gap_append hle rfl
    simpa [fill] using h
  | cons b rest ih =>
    obtain ⟨hb, hrest⟩ := List.pairwise_cons.mp hord
    have hbin := hin b (by simp)
    have htail : Tile b.stop stop (fill b.stop stop rest) := by
      refine ih hbin.2.2 (fun c hc => ?_) hrest
      exact ⟨hb c hc, (hin c (by simp [hc])).2⟩
    exact tile_gap_append hbin.1 ⟨rfl, hbin.2.1, htail⟩

theorem id_eq_none_of_mem_gap {start stop : Nat} {b : Block} (h : b ∈ gap start stop) :
    b.id = none := by
  rw [gap] at h
  split at h
  · rw [List.mem_singleton.mp h]
  · simp at h

/-- Filling up adds unmatched blocks only. -/
@[simp] theorem filterMap_id_fill (start stop : Nat) (blocks : List Block) :
    (fill start stop blocks).filterMap Block.id = blocks.filterMap Block.id := by
  have hgap (i j : Nat) : (gap i j).filterMap Block.id = [] :=
    List.filterMap_eq_nil_iff.mpr fun b hb => id_eq_none_of_mem_gap hb
  induction blocks generalizing start with
  | nil => exact hgap _ _
  | cons b rest ih => simp only [fill, List.filterMap_append, hgap, List.nil_append,
      List.filterMap_cons, ih]

theorem mem_of_mem_fill {start stop : Nat} {blocks : List Block} {b : Block}
    (h : b ∈ fill start stop blocks) (hid : b.id.isSome) : b ∈ blocks := by
  have hgap {i j : Nat} (hb : b ∈ gap i j) : False := by
    simp [id_eq_none_of_mem_gap hb] at hid
  induction blocks generalizing start with
  | nil => exact (hgap h).elim
  | cons c rest ih =>
    rcases List.mem_append.mp h with h | h
    · exact (hgap h).elim
    · rcases List.mem_cons.mp h with rfl | h
      · simp
      · exact List.mem_cons_of_mem _ (ih h)

/-- What holds at both ends of a range and of the blocks in it holds at both ends of its cover. -/
theorem ends_of_mem_fill {P : Nat → Prop} {start stop : Nat} {blocks : List Block}
    (hstart : P start) (hstop : P stop) (hin : ∀ b ∈ blocks, P b.start ∧ P b.stop) {b : Block}
    (h : b ∈ fill start stop blocks) : P b.start ∧ P b.stop := by
  have hgap {i j : Nat} (hi : P i) (hj : P j) (hb : b ∈ gap i j) : P b.start ∧ P b.stop := by
    rw [gap] at hb
    split at hb
    · rw [List.mem_singleton.mp hb]
      exact ⟨hi, hj⟩
    · simp at hb
  induction blocks generalizing start with
  | nil => exact hgap hstart hstop h
  | cons c rest ih =>
    have hc := hin c (by simp)
    rcases List.mem_append.mp h with h | h
    · exact hgap hstart hc.1 h
    · rcases List.mem_cons.mp h with rfl | h
      · exact hc
      · exact ih hc.2 (fun d hd => hin d (by simp [hd])) h

/-- Blocks apart from each other, brought into order and filled up. -/
theorem tile_fill_mergeSort {stop : Nat} {blocks : List Block}
    (hin : ∀ b ∈ blocks, b.start < b.stop ∧ b.stop ≤ stop) (hapart : blocks.Pairwise Apart) :
    Tile 0 stop (fill 0 stop (blocks.mergeSort fun x y => x.start ≤ y.start)) := by
  have hperm := List.mergeSort_perm blocks fun x y => decide (x.start ≤ y.start)
  have hsorted : (blocks.mergeSort fun x y => x.start ≤ y.start).Pairwise
      fun x y => decide (x.start ≤ y.start) := by
    refine List.pairwise_mergeSort ?_ ?_ blocks
    · intro x y z
      simp only [decide_eq_true_eq]
      omega
    · intro x y
      simp only [Bool.or_eq_true, decide_eq_true_eq]
      omega
  have hboth := hsorted.and (hperm.symm.pairwise hapart Apart.symm)
  refine tile_fill (Nat.zero_le _) ?_ ?_
  · intro b hb
    have := hin b (hperm.mem_iff.mp hb)
    omega
  · refine hboth.imp_of_mem fun {x y} hx hy h => ?_
    have hxin := hin x (hperm.mem_iff.mp hx)
    have hyin := hin y (hperm.mem_iff.mp hy)
    obtain ⟨hle, hxy⟩ := h
    simp only [decide_eq_true_eq] at hle
    rcases hxy with hxy | hxy
    · exact hxy
    · omega

end Block

namespace Match

/-- A non-empty match within two texts that agree on it. -/
structure Fits (m : Match) (a b : Text) : Prop where
  pos : 0 < m.length
  previous_le : m.previous + m.length ≤ a.length
  current_le : m.current + m.length ≤ b.length
  units_eq : a.segment m.previous m.length = b.segment m.current m.length

/-- The ranges of two matches overlap in neither text. -/
def Apart (m n : Match) : Prop :=
  (m.previous + m.length ≤ n.previous ∨ n.previous + n.length ≤ m.previous) ∧
    (m.current + m.length ≤ n.current ∨ n.current + n.length ≤ m.current)

end Match

namespace Alignment

/-- Both texts are covered, and the matched blocks are pairs of equal units. -/
structure Sound (al : Alignment) (a b : Text) : Prop where
  previous_tile : Block.Tile 0 a.length al.previous
  current_tile : Block.Tile 0 b.length al.current
  previous_ids : (al.previous.filterMap Block.id).Perm (List.range al.matched)
  current_ids : (al.current.filterMap Block.id).Perm (List.range al.matched)
  units_eq : ∀ x ∈ al.previous, ∀ y ∈ al.current, ∀ id, x.id = some id → y.id = some id →
    x.units a = y.units b

variable {found : List Match}

theorem filterMap_id_mapIdx {side : Match → Nat → Block} (hid : ∀ m id, (side m id).id = some id) :
    (found.mapIdx fun id m => side m id).filterMap Block.id = List.range found.length := by
  rw [List.mapIdx_eq_zipIdx_map, List.filterMap_map]
  have hf : Block.id ∘ (fun p : Match × Nat => side p.1 p.2) = fun p => some p.2 := by
    funext p
    exact hid p.1 p.2
  rw [hf, List.filterMap_eq_map', List.zipIdx_map_snd, List.range_eq_range']

theorem pairwise_mapIdx {side : Match → Nat → Block} {R : Match → Match → Prop}
    (h : found.Pairwise R) (hR : ∀ m n i j, R m n → Block.Apart (side m i) (side n j)) :
    (found.mapIdx fun id m => side m id).Pairwise Block.Apart := by
  rw [List.pairwise_iff_getElem] at h ⊢
  intro i j hi hj hij
  simp only [List.length_mapIdx] at hi hj
  simp only [List.getElem_mapIdx]
  exact hR _ _ _ _ (h i j hi hj hij)

variable {a b : Text}

theorem sound_ofMatches (hfits : ∀ m ∈ found, m.Fits a b) (hapart : found.Pairwise Match.Apart) :
    (ofMatches a.length b.length found).Sound a b where
  previous_tile := by
    refine Block.tile_fill_mergeSort (fun x hx => ?_) (pairwise_mapIdx hapart fun m n i j h => h.1)
    obtain ⟨i, hi, rfl⟩ := List.mem_mapIdx.mp hx
    have hfit := hfits _ (List.getElem_mem hi)
    exact ⟨Nat.lt_add_of_pos_right hfit.pos, hfit.previous_le⟩
  current_tile := by
    refine Block.tile_fill_mergeSort (fun x hx => ?_) (pairwise_mapIdx hapart fun m n i j h => h.2)
    obtain ⟨i, hi, rfl⟩ := List.mem_mapIdx.mp hx
    have hfit := hfits _ (List.getElem_mem hi)
    exact ⟨Nat.lt_add_of_pos_right hfit.pos, hfit.current_le⟩
  previous_ids := by
    simp only [ofMatches, Block.filterMap_id_fill]
    refine ((List.mergeSort_perm _ _).filterMap _).trans (List.Perm.of_eq ?_)
    exact filterMap_id_mapIdx fun _ _ => rfl
  current_ids := by
    simp only [ofMatches, Block.filterMap_id_fill]
    refine ((List.mergeSort_perm _ _).filterMap _).trans (List.Perm.of_eq ?_)
    exact filterMap_id_mapIdx fun _ _ => rfl
  units_eq := by
    intro x hx y hy id hxid hyid
    have hx' := List.mem_mergeSort.mp (Block.mem_of_mem_fill hx (by simp [hxid]))
    have hy' := List.mem_mergeSort.mp (Block.mem_of_mem_fill hy (by simp [hyid]))
    obtain ⟨i, hi, rfl⟩ := List.mem_mapIdx.mp hx'
    obtain ⟨j, hj, rfl⟩ := List.mem_mapIdx.mp hy'
    have hij : i = j := by
      simp only [Match.previousBlock, Match.currentBlock, Option.some.injEq] at hxid hyid
      omega
    subst hij
    have hfit := hfits _ (List.getElem_mem hi)
    simpa [Block.units, Block.length, Match.previousBlock, Match.currentBlock] using hfit.units_eq

end Alignment
end EditHistory
