import EditHistory.Proofs.Alignment.Matches
import Mathlib.Data.List.Chain

/-! The blocks of an alignment as a partition of both texts. What no match takes lies in gaps that
are as wide as can be, and only the common start and the common end may be matched where they are
short. -/
namespace EditHistory
namespace Block

/-- One of two blocks is matched, so that they are not parts of one gap. -/
def Separated (x y : Block) : Prop := x.id.isSome ∨ y.id.isSome

/-- Between matched blocks there is one gap at most. -/
theorem isChain_fill {blocks : List Block} (hmatched : ∀ x ∈ blocks, x.id.isSome) (start stop : Nat) :
    (fill start stop blocks).IsChain Separated := by
  have hgap (i j : Nat) : (gap i j).IsChain Separated := by
    rw [gap]
    split
    · exact .singleton _
    · exact .nil
  induction blocks generalizing start with
  | nil => exact hgap start stop
  | cons x rest ih =>
    have hx : x.id.isSome := hmatched x (by simp)
    have hrest : (fill x.stop stop rest).IsChain Separated := ih (fun y hy => hmatched y (by simp [hy])) _
    refine List.isChain_append.mpr ⟨hgap _ _, List.isChain_cons.mpr ⟨fun y _ => .inl hx, hrest⟩, ?_⟩
    -- whatever the gap in front of `x` is, the next block is `x`
    intro y _ z hz
    obtain rfl := Option.some.inj hz
    exact .inr hx

end Block

namespace Alignment

/-- Sound alignments with gaps as wide as can be, with boundaries that split no surrogate pair, and
with matched blocks longer than a threshold, the common start and the common end apart. -/
structure Partitions (threshold : Nat) (al : Alignment) (a b : Text) : Prop extends Sound al a b where
  previous_separated : al.previous.IsChain Block.Separated
  current_separated : al.current.IsChain Block.Separated
  previous_whole : ∀ x ∈ al.previous, a.splitsPair x.start = false ∧ a.splitsPair x.stop = false
  current_whole : ∀ y ∈ al.current, b.splitsPair y.start = false ∧ b.splitsPair y.stop = false
  long : ∀ x ∈ al.previous, ∀ y ∈ al.current, ∀ id, x.id = some id → y.id = some id →
    (x = ⟨0, startLength a b, some id⟩ ∧ y = ⟨0, startLength a b, some id⟩) ∨
    (x = ⟨a.length - endLength a b, a.length, some id⟩ ∧
      y = ⟨b.length - endLength a b, b.length, some id⟩) ∨
    (threshold < x.length ∧ threshold < y.length)

variable {found : List Match} {start stop id : Nat} {x : Block}

/-- A numbered block comes from the match of its number. -/
theorem eq_side_of_mem_fill (side : Match → Nat → Block) (hid : ∀ m id, (side m id).id = some id)
    (h : x ∈ Block.fill start stop
      ((found.mapIdx fun id m => side m id).mergeSort fun x y => x.start ≤ y.start))
    (hx : x.id = some id) : ∃ m, found[id]? = some m ∧ x = side m id := by
  have hmem := List.mem_mergeSort.mp (Block.mem_of_mem_fill h (by simp [hx]))
  obtain ⟨i, hi, rfl⟩ := List.mem_mapIdx.mp hmem
  obtain rfl : i = id := Option.some.inj ((hid _ _).symm.trans hx)
  exact ⟨found[i], List.getElem?_eq_getElem hi, rfl⟩

theorem isChain_side {side : Match → Nat → Block} (hid : ∀ m id, (side m id).id = some id) :
    (Block.fill start stop
      ((found.mapIdx fun id m => side m id).mergeSort fun x y => x.start ≤ y.start)).IsChain
        Block.Separated := by
  refine Block.isChain_fill (fun y hy => ?_) start stop
  obtain ⟨i, hi, rfl⟩ := List.mem_mapIdx.mp (List.mem_mergeSort.mp hy)
  simp [hid]

/-- Whatever the threshold of the search is, its blocks are a partition of both texts. -/
theorem partitions_ofTexts (threshold : Nat) (previous current : Text) :
    (ofTexts threshold previous current).Partitions threshold previous current where
  toSound := sound_ofTexts threshold previous current
  previous_separated := isChain_side fun _ _ => rfl
  current_separated := isChain_side fun _ _ => rfl
  previous_whole := fun _ => splitsPair_ofTexts_previous
  current_whole := fun _ => splitsPair_ofTexts
  long := by
    intro x hx y hy id hxid hyid
    obtain ⟨m, hm, rfl⟩ := eq_side_of_mem_fill Match.previousBlock (fun _ _ => rfl) hx hxid
    obtain ⟨n, hn, rfl⟩ := eq_side_of_mem_fill Match.currentBlock (fun _ _ => rfl) hy hyid
    obtain rfl : m = n := Option.some.inj (hm.symm.trans hn)
    have hle := endLength_le previous current
    rcases mem_matchesOf (List.mem_of_getElem? hm) with ⟨-, rfl⟩ | hfound | ⟨-, rfl⟩
    · exact .inl ⟨by simp [Match.previousBlock], by simp [Match.currentBlock]⟩
    · refine .inr (.inr ⟨?_, ?_⟩)
      · simpa [Match.previousBlock, Block.length] using hfound.long
      · simpa [Match.currentBlock, Block.length] using hfound.long
    · refine .inr (.inl ⟨?_, ?_⟩)
      · simp only [Match.previousBlock, Nat.sub_add_cancel hle.1]
      · simp only [Match.currentBlock, Nat.sub_add_cancel hle.2]

/-- Alignments partition both texts, with matched blocks longer than the threshold they were searched
with, zero included. The threshold of the settings is that one, except that below one it counts as one. -/
theorem partitions_compute (threshold : Nat) (previous current : Text) :
    (ofTexts threshold previous current).Partitions threshold previous current ∧
      (compute threshold previous current).Partitions (max threshold 1) previous current :=
  ⟨partitions_ofTexts threshold previous current, partitions_ofTexts (max threshold 1) previous current⟩

end Alignment
end EditHistory
