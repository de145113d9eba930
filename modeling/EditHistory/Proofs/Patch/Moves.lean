import EditHistory.Proofs.Alignment.Heaviest
import EditHistory.Proofs.Patch.Between
import EditHistory.Text.Decimal

/-! The fewest units move. What stays in place is as long as any blocks that stand in the same order in
both texts, and what is cut is what does not stay. -/
namespace EditHistory
namespace Alignment

/-! ## Numbers and lengths -/

/-- The numbers and lengths of the matched ones among some blocks. -/
def numbered (blocks : List Block) : List (Nat × Nat) :=
  blocks.filterMap fun x => x.id.map fun id => (id, x.length)

theorem map_fst_numbered (blocks : List Block) :
    (numbered blocks).map Prod.fst = blocks.filterMap Block.id := by
  rw [numbered, List.map_filterMap]
  congr 1
  funext x
  cases x.id <;> rfl

theorem mem_numbered {blocks : List Block} {id length : Nat} :
    (id, length) ∈ numbered blocks ↔ ∃ x ∈ blocks, x.id = some id ∧ x.length = length := by
  constructor
  · intro h
    obtain ⟨x, hx, hpair⟩ := List.mem_filterMap.mp h
    obtain ⟨id', hid, heq⟩ := Option.map_eq_some_iff.mp hpair
    obtain ⟨rfl, rfl⟩ := Prod.mk.inj heq
    exact ⟨x, hx, hid, rfl⟩
  · rintro ⟨x, hx, hid, rfl⟩
    exact List.mem_filterMap.mpr ⟨x, hx, by rw [hid]; rfl⟩

theorem sumOf_filter_numbered (keep : Nat → Bool) (blocks : List Block) :
    sumOf Prod.snd ((numbered blocks).filter fun p => keep p.1) =
      sumOf Block.length (blocks.filter fun x => x.id.any keep) := by
  induction blocks with
  | nil => rfl
  | cons x blocks ih =>
    cases hid : x.id with
    | none => simpa [numbered, hid] using ih
    | some id => cases hkeep : keep id <;> simpa [numbered, hid, hkeep] using ih

/-- A selection from numbers without repetition is found again by its numbers. -/
theorem filter_mem_map_of_sublist {sel all : List (Nat × Nat)} (h : sel.Sublist all)
    (hn : (all.map Prod.fst).Nodup) : (all.filter fun p => p.1 ∈ sel.map Prod.fst) = sel := by
  induction h with
  | slnil => rfl
  | @cons sel all x h ih =>
    obtain ⟨hx, hrest⟩ := List.nodup_cons.mp hn
    have hnot : x.1 ∉ sel.map Prod.fst := fun hmem => hx ((h.map Prod.fst).subset hmem)
    rw [List.filter_cons_of_neg (by simpa using hnot), ih hrest]
  | @cons_cons sel all x h ih =>
    obtain ⟨hx, hrest⟩ := List.nodup_cons.mp hn
    rw [List.filter_cons_of_pos (by simp)]
    refine congrArg (x :: ·) (Eq.trans (List.filter_congr fun p hp => ?_) (ih hrest))
    have hne : p.1 ≠ x.1 := fun heq => hx (heq ▸ List.mem_map_of_mem hp)
    simp only [List.map_cons, List.mem_cons, hne, false_or]

/-! ## Blocks in the same order -/

/-- The blocks under some numbers stand in the same order in both texts. -/
def KeepsOrder (al : Alignment) (keep : Nat → Bool) : Prop :=
  (al.previous.filterMap Block.id).filter keep = (al.current.filterMap Block.id).filter keep

/-- The units of the current text in the blocks under some numbers. -/
def keptUnits (al : Alignment) (keep : Nat → Bool) : Nat :=
  sumOf Block.length (al.current.filter fun x => x.id.any keep)

variable {al : Alignment} {keep : Nat → Bool}

/-- Blocks that stand in the same order in both texts are a selection along which the ranks ascend. -/
theorem KeepsOrder.climbs (h : al.KeepsOrder keep)
    (hprevious : (al.previous.filterMap Block.id).Perm (List.range al.matched)) :
    Climbs al.ranks al.weighted (al.weighted.filter fun p => keep p.1) := by
  have hn : (al.previous.filterMap Block.id).Nodup := hprevious.nodup_iff.mpr List.nodup_range
  refine ⟨List.filter_sublist, ?_⟩
  have hids : (al.weighted.filter fun p => keep p.1).map Prod.fst =
      (al.previous.filterMap Block.id).filter keep := by
    rw [h, ← al.map_fst_weighted, List.filter_map]
    rfl
  have hascend := (pairwise_idxOf hn).filter keep
  rw [← hids, List.pairwise_map] at hascend
  refine hascend.imp_of_mem fun {p q} hp hq hlt => ?_
  have hknown {p : Nat × Nat} (hp : p ∈ al.weighted.filter fun p => keep p.1) :
      al.ranks.getD p.1 0 = (al.previous.filterMap Block.id).idxOf p.1 := by
    have hmem : p.1 ∈ (al.previous.filterMap Block.id).filter keep :=
      hids ▸ List.mem_map_of_mem hp
    have hprev := List.mem_of_mem_filter hmem
    exact getD_ranks hn hprev (List.mem_range.mp (hprevious.mem_iff.mp hprev))
  rwa [hknown hp, hknown hq]

/-- Matched blocks that the current text is cut into are no longer than the text. -/
theorem sumOf_weighted_le {n : Nat} (h : Block.Tile 0 n al.current) : sumOf Prod.snd al.weighted ≤ n := by
  have hmatched := sumOf_filter_numbered (fun _ => true) al.current
  rw [List.filter_true] at hmatched
  calc sumOf Prod.snd al.weighted
      = sumOf Block.length (al.current.filter fun x => x.id.any fun _ => true) := hmatched
    _ ≤ sumOf Block.length al.current := sumOf_le_of_sublist Block.length List.filter_sublist
    _ = n := by rw [← Block.sumOf_length_of_tile h, Nat.zero_add]

/-- What stays in place is as long as any blocks that stand in the same order in both texts. -/
theorem KeepsOrder.keptUnits_le (h : al.KeepsOrder keep)
    (hprevious : (al.previous.filterMap Block.id).Perm (List.range al.matched))
    (hcurrent : (al.current.filterMap Block.id).Perm (List.range al.matched)) :
    al.keptUnits keep ≤ al.keptUnits (al.stationary.getD · false) := by
  have hcn : (al.current.filterMap Block.id).Nodup := hcurrent.nodup_iff.mpr List.nodup_range
  have hid {p : Nat × Nat} (hp : p ∈ al.weighted) : p.1 < al.matched :=
    al.lt_matched_of_mem_weighted hcurrent hp
  obtain ⟨sel, hsub, hids, hmost⟩ := al.exists_heaviest (al.ranks_le_matched hprevious hcurrent)
  have hstay : (al.weighted.filter fun p => al.stationary.getD p.1 false) = sel := by
    refine Eq.trans (List.filter_congr fun p hp => ?_)
      (filter_mem_map_of_sublist hsub (al.map_fst_weighted ▸ hcn))
    rw [al.getD_stationary (hid hp), hids]
    simp
  have hle := hmost _ (h.climbs hprevious)
  rw [← hstay] at hle
  rw [keptUnits, keptUnits, ← sumOf_filter_numbered, ← sumOf_filter_numbered]
  exact hle

end Alignment

/-! ## Cut ranges -/

/-- The units that an edit cuts out. -/
def Edit.cutLength {τ : Type} : Edit τ → Nat
  | .cut _ length _ => length
  | .full _ | .insert .. | .delete .. | .replace .. | .paste .. => 0

def Patch.cutUnits (patch : Patch) : Nat := sumOf Edit.cutLength patch

theorem Patch.cutUnits_eq (patch : Patch) :
    patch.cutUnits = sumOf Removal.length (patch.removals.filter fun x => x.block.isSome) := by
  induction patch with
  | nil => rfl
  | cons e patch ih =>
    rw [Patch.cutUnits] at ih
    rw [Patch.cutUnits, sumOf_cons, ih, removals_cons, List.filter_append, sumOf_append]
    exact congrArg (· + _) (by cases e <;> rfl)

namespace Alignment

variable {al : Alignment} {keep : Nat → Bool} {b : Text}

/-- A walk cuts the matched blocks that it does not leave in place. -/
theorem cutUnits_editsFrom (b : Text) (keep : Nat → Bool) (as bs : List Block) :
    (editsFrom (fun x => x.id.any keep) b as bs).cutUnits =
      sumOf Prod.snd ((numbered as).filter fun p => !keep p.1) := by
  rw [Patch.cutUnits_eq, removals_editsFrom, List.filter_map, sumOf_map, List.filter_filter]
  refine Eq.trans (congrArg (sumOf Block.length) (List.filter_congr fun x _ => ?_))
    (sumOf_filter_numbered (fun id => !keep id) as).symm
  cases hid : x.id <;> simp [hid]

/-- Where the two blocks of a number are equally long, both texts have the same numbers and lengths. -/
theorem numbered_perm
    (hprevious : (al.previous.filterMap Block.id).Perm (List.range al.matched))
    (hcurrent : (al.current.filterMap Block.id).Perm (List.range al.matched))
    (hlength : ∀ x ∈ al.previous, ∀ y ∈ al.current, ∀ id, x.id = some id → y.id = some id →
      x.length = y.length) : (numbered al.previous).Perm (numbered al.current) := by
  have hids := hprevious.trans hcurrent.symm
  have hnodup {blocks : List Block} (h : (blocks.filterMap Block.id).Perm (List.range al.matched)) :
      (numbered blocks).Nodup := by
    refine List.Nodup.of_map Prod.fst ?_
    rw [map_fst_numbered]
    exact h.nodup_iff.mpr List.nodup_range
  refine (List.perm_ext_iff_of_nodup (hnodup hprevious) (hnodup hcurrent)).mpr fun p => ?_
  obtain ⟨id, length⟩ := p
  rw [mem_numbered, mem_numbered]
  constructor
  · rintro ⟨x, hx, hid, rfl⟩
    obtain ⟨y, hy, hyid⟩ := List.mem_filterMap.mp
      (hids.mem_iff.mp (List.mem_filterMap.mpr ⟨x, hx, hid⟩))
    exact ⟨y, hy, hyid, (hlength x hx y hy id hid hyid).symm⟩
  · rintro ⟨y, hy, hid, rfl⟩
    obtain ⟨x, hx, hxid⟩ := List.mem_filterMap.mp
      (hids.mem_iff.mpr (List.mem_filterMap.mpr ⟨y, hy, hid⟩))
    exact ⟨x, hx, hxid, hlength x hx y hy id hxid hid⟩

/-- What is cut and what stays in place make up all matched blocks. -/
theorem cutUnits_add_keptUnits (hperm : (numbered al.previous).Perm (numbered al.current)) (b : Text)
    (keep : Nat → Bool) :
    (editsFrom (fun x => x.id.any keep) b al.previous al.current).cutUnits + al.keptUnits keep =
      sumOf Prod.snd (numbered al.current) := by
  rw [cutUnits_editsFrom, keptUnits, ← sumOf_filter_numbered, sumOf_perm _ (hperm.filter _),
    Nat.add_comm]
  exact sumOf_filter_add Prod.snd (fun p => keep p.1) _

/-- Where every number stands once on both sides, the blocks that stay in place stand in the same order in
both texts, and no other blocks that do are longer in total. Where moreover the two blocks of a number are
equally long, no walk that leaves other blocks of one order in place cuts fewer units. Blocks are ranges of
the texts, and lengths and their sums are 64-bit words: where the blocks cover a current text of fewer units
than there are words, no chain that is compared weighs more than a word holds. -/
theorem stationary_heaviest (al : Alignment) (current : Text)
    (hprevious : (al.previous.filterMap Block.id).Perm (List.range al.matched))
    (hcurrent : (al.current.filterMap Block.id).Perm (List.range al.matched)) :
    al.KeepsOrder (al.stationary.getD · false) ∧
      (∀ keep, al.KeepsOrder keep →
        al.keptUnits keep ≤ al.keptUnits (al.stationary.getD · false) ∧
        ((∀ x ∈ al.previous, ∀ y ∈ al.current, ∀ id, x.id = some id → y.id = some id →
            x.length = y.length) →
          (al.edits current).cutUnits ≤
            (editsFrom (fun x => x.id.any keep) current al.previous al.current).cutUnits)) ∧
      (Block.Tile 0 current.length al.current → current.length < Decimal.wordLimit →
        ∀ seen block rest, al.weighted = seen ++ block :: rest →
          (al.chainTo seen block).weight < Decimal.wordLimit) := by
  refine ⟨al.filter_stationary hprevious hcurrent, fun keep hkeep => ?_,
    fun htile hshort seen block rest hblocks => ?_⟩
  · have hkept := hkeep.keptUnits_le hprevious hcurrent
    refine ⟨hkept, fun hlength => ?_⟩
    have hperm := numbered_perm hprevious hcurrent hlength
    have hstays := cutUnits_add_keptUnits hperm current (al.stationary.getD · false)
    have hother := cutUnits_add_keptUnits hperm current keep
    have hedits : al.edits current =
        editsFrom (fun x => x.id.any (al.stationary.getD · false)) current al.previous al.current := rfl
    rw [hedits]
    omega
  · calc (al.chainTo seen block).weight
        ≤ sumOf Prod.snd al.weighted :=
          al.weight_chainTo_le (al.ranks_le_matched hprevious hcurrent) hblocks
      _ ≤ current.length := sumOf_weighted_le htile
      _ < Decimal.wordLimit := hshort

/-- Two blocks that change places behind a common start. -/
def exchanged : Alignment where
  previous := [⟨0, 1, some 0⟩, ⟨1, 3, some 1⟩, ⟨3, 6, some 2⟩, ⟨6, 7, none⟩]
  current := [⟨0, 1, some 0⟩, ⟨1, 4, some 2⟩, ⟨4, 6, some 1⟩]
  matched := 3

/-- Of two blocks that change places the shorter one moves; to move the longer one takes three units. -/
theorem stationary_heaviest_exchanged :
    (exchanged.previous.filterMap Block.id).Perm (List.range exchanged.matched) ∧
    (exchanged.current.filterMap Block.id).Perm (List.range exchanged.matched) ∧
    exchanged.KeepsOrder (exchanged.stationary.getD · false) ∧
    exchanged.KeepsOrder (· != 2) ∧
    exchanged.keptUnits (· != 2) ≤ exchanged.keptUnits (exchanged.stationary.getD · false) ∧
    (exchanged.edits [1, 2, 3, 4, 5, 6]).cutUnits ≤ (editsFrom (fun x => x.id.any (· != 2))
      [1, 2, 3, 4, 5, 6] exchanged.previous exchanged.current).cutUnits ∧
    Block.Tile 0 6 exchanged.current ∧
    (exchanged.chainTo [(0, 1), (2, 3)] (1, 2)).weight < Decimal.wordLimit :=
  have hprevious : (exchanged.previous.filterMap Block.id).Perm (List.range exchanged.matched) :=
    List.Perm.refl _
  have hcurrent : (exchanged.current.filterMap Block.id).Perm (List.range exchanged.matched) :=
    .cons 0 (.swap 1 2 [])
  have hkeep : exchanged.KeepsOrder (· != 2) := rfl
  have hlength : ∀ x ∈ exchanged.previous, ∀ y ∈ exchanged.current, ∀ id, x.id = some id →
      y.id = some id → x.length = y.length := by
    simp [exchanged, Block.length]
  have htile : Block.Tile 0 6 exchanged.current := by simp [exchanged, Block.Tile]
  have h := stationary_heaviest exchanged [1, 2, 3, 4, 5, 6] hprevious hcurrent
  ⟨hprevious, hcurrent, h.1, hkeep, (h.2.1 _ hkeep).1, (h.2.1 _ hkeep).2 hlength, htile,
    h.2.2 htile (by decide) _ _ _ rfl⟩

/-- Two blocks that change places, and one of them is longer in the current text. -/
def stretched : Alignment where
  previous := [⟨0, 1, some 0⟩, ⟨1, 4, some 1⟩]
  current := [⟨0, 1, some 1⟩, ⟨1, 4, some 0⟩]
  matched := 2

/-- Where the blocks of a number are not equally long, what is cut may be longer than it has to be: the
lengths in the current text decide which block stays. -/
theorem cutUnits_edits_stretched :
    (stretched.previous.filterMap Block.id).Perm (List.range stretched.matched) ∧
    (stretched.current.filterMap Block.id).Perm (List.range stretched.matched) ∧
    stretched.KeepsOrder (· == 1) ∧
    stretched.edits [1, 2, 3, 4] = [.paste 0 1, .cut 1 3 1] ∧
    editsFrom (fun x => x.id.any (· == 1)) [1, 2, 3, 4] stretched.previous stretched.current =
      [.cut 0 1 0, .paste 1 0] ∧
    Patch.cutUnits [.cut 0 1 0, .paste 1 0] < Patch.cutUnits [.paste 0 1, .cut 1 3 1] :=
  ⟨List.Perm.refl _, .swap 0 1 [], rfl, by decide +kernel, by decide +kernel, by decide⟩

end Alignment
end EditHistory
