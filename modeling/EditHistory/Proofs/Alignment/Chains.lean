import EditHistory.Alignment.Stationary
import Mathlib.Data.List.Perm.Subperm
import Mathlib.Data.List.Sort

/-! The blocks that stay in place stand in the same order in both texts: every chain of the survey
is a selection from the blocks of the current text, and the ranks in the previous text ascend
along it. -/
namespace EditHistory

/-- The numbers of a chain are a selection from `seen`, and their ranks ascend. -/
structure Chain.Ascends (rank : Nat → Nat) (seen : List Nat) (c : Chain) : Prop where
  sublist : c.ids.reverse.Sublist seen
  descend : c.ids.Pairwise fun x y => rank y < rank x

theorem Chain.Ascends.mono {rank : Nat → Nat} {seen : List Nat} {c : Chain}
    (h : c.Ascends rank seen) (more : List Nat) : c.Ascends rank (seen ++ more) :=
  ⟨h.sublist.trans (List.sublist_append_left _ _), h.descend⟩

theorem Chain.best_eq_some {x y : Option Chain} {c : Chain} (h : Chain.best x y = some c) :
    x = some c ∨ y = some c := by
  simp only [Chain.best] at h
  split at h
  · split at h
    · exact Or.inr h
    · exact Or.inl h
  · exact Or.inl h
  · exact Or.inr h

namespace PrefixMaximum

theorem queryFrom_eq_some {nodes : Array (Option Chain)} {i : Nat} {found : Option Chain}
    {c : Chain} (h : queryFrom nodes i found = some c) :
    found = some c ∨ ∃ k ≤ i, nodes.getD k none = some c := by
  fun_induction queryFrom nodes i found with
  | case1 i found hpos hlt ih =>
    rcases ih h with hbest | ⟨k, hk, hnode⟩
    · rcases Chain.best_eq_some hbest with hfound | hnode
      · exact Or.inl hfound
      · exact Or.inr ⟨i, Nat.le_refl _, hnode⟩
    · exact Or.inr ⟨k, by omega, hnode⟩
  | case2 => exact Or.inl h

theorem getD_updateFrom {chain : Chain} {nodes : Array (Option Chain)} {i k : Nat} {c : Chain}
    (h : (updateFrom chain nodes i).getD k none = some c) :
    nodes.getD k none = some c ∨ (i ≤ k ∧ c = chain) := by
  fun_induction updateFrom chain nodes i with
  | case1 nodes i hi hpos ih =>
    rcases ih h with hnode | ⟨hle, hc⟩
    · by_cases hk : i = k
      · subst hk
        have hset : Chain.best nodes[i] (some chain) = some c := by
          simpa [Array.getD, hi.2] using hnode
        rcases Chain.best_eq_some hset with hold | hnew
        · left
          simpa [Array.getD, hi.2] using hold
        · exact Or.inr ⟨Nat.le_refl _, (Option.some.inj hnew).symm⟩
      · left
        rw [Array.getD_eq_getD_getElem?, Array.getElem?_set_ne hi.2 hk] at hnode
        rwa [Array.getD_eq_getD_getElem?]
    · exact Or.inr ⟨by omega, hc⟩
  | case2 => exact Or.inl h

end PrefixMaximum

namespace Alignment

theorem getD_writeRanks_of_not_mem {table : Array Nat} {rank : Nat} {ids : List Nat} {id : Nat}
    (h : id ∉ ids) : (writeRanks table rank ids).getD id 0 = table.getD id 0 := by
  induction ids generalizing table rank with
  | nil => rfl
  | cons x rest ih =>
    simp only [List.mem_cons, not_or] at h
    rw [writeRanks, ih h.2, Array.getD_eq_getD_getElem?, Array.getD_eq_getD_getElem?,
      Array.getElem?_setIfInBounds_ne (Ne.symm h.1)]

theorem getD_writeRanks {table : Array Nat} {rank : Nat} {ids : List Nat} {id : Nat}
    (hn : ids.Nodup) (hmem : id ∈ ids) (hlt : id < table.size) :
    (writeRanks table rank ids).getD id 0 = rank + ids.idxOf id := by
  induction ids generalizing table rank with
  | nil => simp at hmem
  | cons x rest ih =>
    obtain ⟨hx, hrest⟩ := List.nodup_cons.mp hn
    by_cases hid : x = id
    · subst hid
      rw [writeRanks, getD_writeRanks_of_not_mem hx]
      simp [Array.getD, hlt]
    · have hmem' : id ∈ rest := by simpa [Ne.symm hid] using hmem
      rw [writeRanks, ih hrest hmem' (by simpa using hlt), List.idxOf_cons_ne _ hid]
      omega

namespace Survey

/-- All chains of a survey ascend, and a node of the tree holds ranks below its index only. -/
structure Ascending (rank : Nat → Nat) (seen : List Nat) (s : Survey) : Prop where
  node : ∀ k c, s.tree.nodes.getD k none = some c →
    c.Ascends rank seen ∧ ∀ id ∈ c.ids, rank id < k
  best : ∀ c, s.best = some c → c.Ascends rank seen

theorem ascending_start (rank : Nat → Nat) (matched : Nat) :
    (Survey.start matched).Ascending rank [] where
  node k c h := by simp [Survey.start, PrefixMaximum.empty, Array.getD] at h
  best c h := by simp [Survey.start] at h

variable {rankOf : Array Nat} {seen : List Nat} {s : Survey}

/-- The chain to a block extends one whose ranks lie below the rank of the block. -/
theorem ascends_chainTo (h : s.Ascending (rankOf.getD · 0) seen) (id length : Nat) :
    (s.chainTo (rankOf.getD id 0) id length).Ascends (rankOf.getD · 0) (seen ++ [id]) ∧
      ∀ x ∈ (s.chainTo (rankOf.getD id 0) id length).ids,
        rankOf.getD x 0 < rankOf.getD id 0 + 1 := by
  rw [chainTo]
  split
  · refine ⟨⟨by simp, by simp⟩, ?_⟩
    intro x hx
    rw [List.mem_singleton.mp hx]
    exact Nat.lt_succ_self _
  · rename_i c hquery
    rcases PrefixMaximum.queryFrom_eq_some hquery with hnone | ⟨k, hk, hnode⟩
    · simp at hnone
    · obtain ⟨hasc, hlt⟩ := h.node k c hnode
      refine ⟨⟨?_, ?_⟩, ?_⟩
      · simpa using hasc.sublist.append (List.Sublist.refl [id])
      · refine List.pairwise_cons.mpr ⟨fun x hx => ?_, hasc.descend⟩
        exact Nat.lt_of_lt_of_le (hlt x hx) hk
      · intro x hx
        rcases List.mem_cons.mp hx with rfl | hx
        · exact Nat.lt_succ_self _
        · have := hlt x hx
          omega

theorem ascending_add (h : s.Ascending (rankOf.getD · 0) seen) (block : Nat × Nat) :
    (s.add rankOf block).Ascending (rankOf.getD · 0) (seen ++ [block.1]) := by
  obtain ⟨hchain, hbelow⟩ := ascends_chainTo h block.1 block.2
  refine ⟨?_, ?_⟩
  · intro k c hnode
    rcases PrefixMaximum.getD_updateFrom hnode with hold | ⟨hle, rfl⟩
    · obtain ⟨hasc, hlt⟩ := h.node k c hold
      exact ⟨hasc.mono _, hlt⟩
    · exact ⟨hchain, fun x hx => Nat.lt_of_lt_of_le (hbelow x hx) hle⟩
  · intro c hbest
    rcases Chain.best_eq_some hbest with hold | hnew
    · exact (h.best c hold).mono _
    · rw [← Option.some.inj hnew]
      exact hchain

theorem ascending_foldl (h : s.Ascending (rankOf.getD · 0) seen) (blocks : List (Nat × Nat)) :
    (blocks.foldl (Survey.add rankOf) s).Ascending (rankOf.getD · 0)
      (seen ++ blocks.map Prod.fst) := by
  induction blocks generalizing s seen with
  | nil => simpa using h
  | cons block rest ih => simpa using ih (ascending_add h block)

end Survey

variable (al : Alignment)

theorem map_fst_weighted : al.weighted.map Prod.fst = al.current.filterMap Block.id := by
  rw [weighted]
  rw [List.map_filterMap]
  congr 1
  funext b
  cases b.id <;> rfl

theorem getD_ranks {al : Alignment} (hn : (al.previous.filterMap Block.id).Nodup) {id : Nat}
    (hmem : id ∈ al.previous.filterMap Block.id) (hlt : id < al.matched) :
    al.ranks.getD id 0 = (al.previous.filterMap Block.id).idxOf id := by
  rw [ranks, getD_writeRanks hn hmem (by simpa using hlt), Nat.zero_add]

theorem lt_matched_of_mem_weighted
    (hcurrent : (al.current.filterMap Block.id).Perm (List.range al.matched)) {block : Nat × Nat}
    (h : block ∈ al.weighted) : block.1 < al.matched := by
  have hmem : block.1 ∈ al.current.filterMap Block.id :=
    al.map_fst_weighted ▸ List.mem_map_of_mem h
  exact List.mem_range.mp (hcurrent.mem_iff.mp hmem)

/-- A rank is that of some number of the previous text, of which there are no more than numbers. -/
theorem getD_ranks_le (hn : (al.previous.filterMap Block.id).Nodup)
    (hids : al.previous.filterMap Block.id ⊆ List.range al.matched) {id : Nat} (hid : id < al.matched) :
    al.ranks.getD id 0 ≤ al.matched := by
  have hlength := (List.Nodup.subperm hn hids).length_le
  rw [List.length_range] at hlength
  by_cases hmem : id ∈ al.previous.filterMap Block.id
  · rw [getD_ranks hn hmem hid]
    exact Nat.le_trans (Nat.le_of_lt (List.idxOf_lt_length_of_mem hmem)) hlength
  · rw [ranks, getD_writeRanks_of_not_mem hmem]
    simp [Array.getD, hid]

theorem ranks_le_matched
    (hprevious : (al.previous.filterMap Block.id).Perm (List.range al.matched))
    (hcurrent : (al.current.filterMap Block.id).Perm (List.range al.matched)) :
    ∀ block ∈ al.weighted, al.ranks.getD block.1 0 ≤ al.matched := fun _ hblock =>
  al.getD_ranks_le (hprevious.nodup_iff.mpr List.nodup_range) hprevious.subset
    (al.lt_matched_of_mem_weighted hcurrent hblock)

theorem ascends_stationaryIds :
    al.stationaryIds.reverse.Sublist (al.current.filterMap Block.id) ∧
      al.stationaryIds.reverse.Pairwise fun x y => al.ranks.getD x 0 < al.ranks.getD y 0 := by
  have hstart := Survey.ascending_start (al.ranks.getD · 0) al.matched
  have h := Survey.ascending_foldl hstart al.weighted
  rw [map_fst_weighted, List.nil_append] at h
  rw [stationaryIds]
  split
  · simp
  · rename_i c hc
    obtain ⟨hsub, hdesc⟩ := h.best c hc
    exact ⟨hsub, List.pairwise_reverse.mpr hdesc⟩

theorem getD_foldl_setIfInBounds {flags : Array Bool} {ids : List Nat} {id : Nat}
    (hlt : id < flags.size) :
    (ids.foldl (fun flags id => flags.setIfInBounds id true) flags).getD id false =
      (flags.getD id false || decide (id ∈ ids)) := by
  induction ids generalizing flags with
  | nil => simp
  | cons x rest ih =>
    rw [List.foldl_cons, ih (by simpa using hlt)]
    by_cases hx : x = id
    · subst hx
      simp [Array.getD, hlt]
    · rw [Array.getD_eq_getD_getElem?, Array.getElem?_setIfInBounds_ne hx,
        ← Array.getD_eq_getD_getElem?]
      simp [Ne.symm hx]

theorem getD_stationary {id : Nat} (hlt : id < al.matched) :
    al.stationary.getD id false = decide (id ∈ al.stationaryIds) := by
  rw [stationary]
  rw [getD_foldl_setIfInBounds (by simpa using hlt)]
  simp [Array.getD]

theorem pairwise_idxOf {l : List Nat} (hl : l.Nodup) :
    l.Pairwise fun x y => l.idxOf x < l.idxOf y := by
  refine List.pairwise_iff_getElem.mpr ?_
  intro i j hi hj hij
  simpa only [hl.idxOf_getElem i hi, hl.idxOf_getElem j hj] using hij

/-- A selection whose positions ascend is what is left when all else is filtered out. -/
theorem filter_eq_of_pairwise_idxOf {l s : List Nat} (hl : l.Nodup) (hsub : ∀ x ∈ s, x ∈ l)
    (hs : s.Pairwise fun x y => l.idxOf x < l.idxOf y) : (l.filter fun x => x ∈ s) = s := by
  have hirrefl : Std.Irrefl fun x y => l.idxOf x < l.idxOf y := ⟨fun _ => Nat.lt_irrefl _⟩
  have hantisymm : Std.Antisymm fun x y => l.idxOf x < l.idxOf y :=
    ⟨fun _ _ hxy hyx => absurd hyx (Nat.lt_asymm hxy)⟩
  refine List.Pairwise.eq_of_mem_iff ((pairwise_idxOf hl).filter _) hs ?_
  intro x
  simpa using hsub x

/-- Where every number stands once on both sides, the blocks that stay in place stand in the same
order in both texts. -/
theorem filter_stationary
    (hprevious : (al.previous.filterMap Block.id).Perm (List.range al.matched))
    (hcurrent : (al.current.filterMap Block.id).Perm (List.range al.matched)) :
    (al.previous.filterMap Block.id).filter (al.stationary.getD · false) =
      (al.current.filterMap Block.id).filter (al.stationary.getD · false) := by
  have hpn : (al.previous.filterMap Block.id).Nodup := hprevious.nodup_iff.mpr List.nodup_range
  have hcn : (al.current.filterMap Block.id).Nodup := hcurrent.nodup_iff.mpr List.nodup_range
  obtain ⟨hsub, hrank⟩ := al.ascends_stationaryIds
  have hmem (x : Nat) (hx : x ∈ al.stationaryIds.reverse) :
      x ∈ al.previous.filterMap Block.id ∧ x < al.matched := by
    have hr := hcurrent.mem_iff.mp (hsub.subset hx)
    exact ⟨hprevious.mem_iff.mpr hr, List.mem_range.mp hr⟩
  have hflag {l : List Nat} (hl : l.Perm (List.range al.matched)) :
      l.filter (al.stationary.getD · false) = l.filter fun x => x ∈ al.stationaryIds.reverse := by
    refine List.filter_congr ?_
    intro x hx
    rw [al.getD_stationary (List.mem_range.mp (hl.mem_iff.mp hx))]
    simp
  rw [hflag hprevious, hflag hcurrent]
  have hleft := filter_eq_of_pairwise_idxOf hpn (fun x hx => (hmem x hx).1) <| by
    refine hrank.imp_of_mem fun {x y} hx hy hlt => ?_
    rw [ranks] at hlt
    rw [getD_writeRanks hpn (hmem x hx).1 (by simpa using (hmem x hx).2),
      getD_writeRanks hpn (hmem y hy).1 (by simpa using (hmem y hy).2)] at hlt
    omega
  have hright := filter_eq_of_pairwise_idxOf hcn hsub.subset ((pairwise_idxOf hcn).sublist hsub)
  rw [hleft, hright]

end Alignment
end EditHistory
