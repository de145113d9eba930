import EditHistory.Proofs.Alignment.Chains
import EditHistory.Proofs.Alignment.PrefixMaximum
import EditHistory.Proofs.Sum

/-! The best chain of a survey is as heavy as any selection along which the ranks ascend. The survey
enters a chain for every block, and no such selection that ends with the block outweighs that chain. -/
namespace EditHistory

/-- The numbers of a chain are those of a selection from `seen`, and its weight is their length. -/
def Chain.Selects (seen : List (Nat × Nat)) (c : Chain) : Prop :=
  ∃ sel : List (Nat × Nat),
    sel.Sublist seen ∧ sel.map Prod.fst = c.ids.reverse ∧ sumOf Prod.snd sel = c.weight

theorem Chain.Selects.mono {seen : List (Nat × Nat)} {c : Chain} (h : c.Selects seen)
    (more : List (Nat × Nat)) : c.Selects (seen ++ more) := by
  obtain ⟨sel, hsub, hids, hweight⟩ := h
  exact ⟨sel, hsub.trans (List.sublist_append_left _ _), hids, hweight⟩

namespace Alignment

/-- A selection along which the ranks ascend. -/
structure Climbs (rankOf : Array Nat) (seen sel : List (Nat × Nat)) : Prop where
  sublist : sel.Sublist seen
  ascend : sel.Pairwise fun x y => rankOf.getD x.1 0 < rankOf.getD y.1 0

namespace Survey

/-- The chains that were entered are selections of what was seen, and for every selection along which
the ranks ascend there is a chain at the rank of its last block that weighs no less. -/
structure Dominates (rankOf : Array Nat) (n : Nat) (seen : List (Nat × Nat))
    (entries : List (Nat × Chain)) (s : Survey) : Prop where
  holds : s.tree.Holds n entries
  selects : ∀ rank c, (rank, c) ∈ entries → c.Selects seen
  reaches : ∀ sel x, Climbs rankOf seen (sel ++ [x]) →
    ∃ c, (rankOf.getD x.1 0, c) ∈ entries ∧ sumOf Prod.snd (sel ++ [x]) ≤ c.weight
  best : Chain.IsBestOf (fun c => ∃ rank, (rank, c) ∈ entries) s.best

theorem dominates_start (rankOf : Array Nat) (n : Nat) :
    (Survey.start n).Dominates rankOf n [] [] where
  holds := PrefixMaximum.holds_empty n
  selects rank c h := by cases h
  reaches sel x h := by simpa using h.sublist
  best := by
    rintro c ⟨rank, h⟩
    cases h

variable {rankOf : Array Nat} {n : Nat} {seen : List (Nat × Nat)} {entries : List (Nat × Chain)}
  {s : Survey} {rank : Nat}

theorem Dominates.selects_chainTo (h : s.Dominates rankOf n seen entries) (hrank : rank ≤ n)
    (id length : Nat) : (s.chainTo rank id length).Selects (seen ++ [(id, length)]) := by
  have hquery := h.holds.query hrank
  rw [chainTo]
  split
  · exact ⟨[(id, length)], List.sublist_append_right _ _, rfl, rfl⟩
  · rename_i c hc
    rw [hc] at hquery
    obtain ⟨⟨k, -, hmem⟩, -⟩ := hquery
    obtain ⟨sel, hsub, hids, hweight⟩ := h.selects k c hmem
    refine ⟨sel ++ [(id, length)], hsub.append (List.Sublist.refl _), ?_, ?_⟩
    · rw [List.map_append, hids]
      exact List.reverse_cons.symm
    · rw [sumOf_append, hweight]
      exact Nat.add_comm ..

/-- The chain to a block weighs as much as the block behind any selection of smaller ranks. -/
theorem Dominates.le_weight_chainTo (h : s.Dominates rankOf n seen entries) (hrank : rank ≤ n)
    (id length : Nat) {sel : List (Nat × Nat)} (hsel : Climbs rankOf seen sel)
    (hbelow : ∀ x ∈ sel, rankOf.getD x.1 0 < rank) :
    sumOf Prod.snd sel + length ≤ (s.chainTo rank id length).weight := by
  have hquery := h.holds.query hrank
  rcases List.eq_nil_or_concat' sel with rfl | ⟨front, x, rfl⟩
  · rw [chainTo]
    split
    · exact Nat.le_of_eq (Nat.zero_add _)
    · rw [sumOf_nil, Nat.zero_add]
      exact Nat.le_add_right ..
  · obtain ⟨c, hmem, hweight⟩ := h.reaches front x hsel
    have hkind : ∃ k < rank, (k, c) ∈ entries := ⟨_, hbelow x (by simp), hmem⟩
    rw [chainTo]
    split
    · rename_i hnone
      rw [hnone] at hquery
      exact absurd hkind (hquery c)
    · rename_i found hsome
      rw [hsome] at hquery
      have hbest := Chain.weight_le_of_not_beats (hquery.2 c hkind)
      dsimp only
      omega

theorem Dominates.add (h : s.Dominates rankOf n seen entries) (block : Nat × Nat)
    (hrank : rankOf.getD block.1 0 ≤ n) :
    ∃ entries', (s.add rankOf block).Dominates rankOf n (seen ++ [block]) entries' := by
  let rank := rankOf.getD block.1 0
  let chain := s.chainTo rank block.1 block.2
  refine ⟨entries ++ [(rank, chain)], h.holds.update rank chain, ?_, ?_, h.best.enter rank chain⟩
  · intro k c hmem
    rcases List.mem_append.mp hmem with hold | hnew
    · exact (h.selects k c hold).mono _
    · obtain ⟨-, rfl⟩ := Prod.mk.inj (List.mem_singleton.mp hnew)
      exact h.selects_chainTo hrank block.1 block.2
  · intro sel x hclimbs
    obtain ⟨old, new, heq, hold, hnew⟩ := List.sublist_append_iff.mp hclimbs.sublist
    rcases List.sublist_singleton.mp hnew with rfl | rfl
    · -- a selection of blocks that were seen before
      rw [List.append_nil] at heq
      obtain ⟨c, hmem, hweight⟩ := h.reaches sel x ⟨heq ▸ hold, hclimbs.ascend⟩
      exact ⟨c, List.mem_append_left _ hmem, hweight⟩
    · obtain ⟨rfl, hx⟩ := List.append_inj' heq rfl
      obtain rfl : x = block := List.singleton_inj.mp hx
      obtain ⟨hbefore, -, hlast⟩ := List.pairwise_append.mp hclimbs.ascend
      have hbelow : ∀ y ∈ sel, rankOf.getD y.1 0 < rank := fun y hy => hlast y hy x (by simp)
      have hweight := h.le_weight_chainTo hrank x.1 x.2 ⟨hold, hbefore⟩ hbelow
      refine ⟨chain, List.mem_append_right _ (List.mem_singleton_self _), ?_⟩
      rw [sumOf_append]
      exact hweight

theorem Dominates.foldl (h : s.Dominates rankOf n seen entries) (blocks : List (Nat × Nat))
    (hranks : ∀ block ∈ blocks, rankOf.getD block.1 0 ≤ n) :
    ∃ entries', (blocks.foldl (Survey.add rankOf) s).Dominates rankOf n (seen ++ blocks) entries' := by
  induction blocks generalizing s seen entries with
  | nil => exact ⟨entries, by simpa using h⟩
  | cons block rest ih =>
    obtain ⟨hrank, hrest⟩ := List.forall_mem_cons.mp hranks
    obtain ⟨middle, hmiddle⟩ := h.add block hrank
    obtain ⟨entries', hend⟩ := ih hmiddle hrest
    exact ⟨entries', by simpa using hend⟩

end Survey

variable (al : Alignment)

/-- The chain to a block behind those that a survey has seen. -/
def chainTo (seen : List (Nat × Nat)) (block : Nat × Nat) : Chain :=
  (seen.foldl (Survey.add al.ranks) (Survey.start al.matched)).chainTo (al.ranks.getD block.1 0)
    block.1 block.2

/-- No chain of a survey weighs more than all its blocks together. -/
theorem weight_chainTo_le (hranks : ∀ block ∈ al.weighted, al.ranks.getD block.1 0 ≤ al.matched)
    {seen rest : List (Nat × Nat)} {block : Nat × Nat} (hblocks : al.weighted = seen ++ block :: rest) :
    (al.chainTo seen block).weight ≤ sumOf Prod.snd al.weighted := by
  rw [hblocks] at hranks ⊢
  obtain ⟨hseen, hrest⟩ := List.forall_mem_append.mp hranks
  obtain ⟨entries, h⟩ := (Survey.dominates_start al.ranks al.matched).foldl seen hseen
  obtain ⟨sel, hsub, -, hweight⟩ :=
    h.selects_chainTo (List.forall_mem_cons.mp hrest).1 block.1 block.2
  have hle := sumOf_le_of_sublist Prod.snd hsub
  rw [List.nil_append, hweight, sumOf_append, sumOf_cons, sumOf_nil] at hle
  rw [sumOf_append, sumOf_cons]
  exact Nat.le_trans hle (by omega)

/-- The numbers that stay are those of a selection that no other one outweighs. -/
theorem exists_heaviest (hranks : ∀ block ∈ al.weighted, al.ranks.getD block.1 0 ≤ al.matched) :
    ∃ sel : List (Nat × Nat),
      sel.Sublist al.weighted ∧ sel.map Prod.fst = al.stationaryIds.reverse ∧
      ∀ other, Climbs al.ranks al.weighted other → sumOf Prod.snd other ≤ sumOf Prod.snd sel := by
  obtain ⟨entries, h⟩ :=
    (Survey.dominates_start al.ranks al.matched).foldl al.weighted hranks
  rw [List.nil_append] at h
  have hbest := h.best
  have hother (other : List (Nat × Nat)) (hclimbs : Climbs al.ranks al.weighted other) :
      other = [] ∨ ∃ c, (∃ rank, (rank, c) ∈ entries) ∧ sumOf Prod.snd other ≤ c.weight := by
    rcases List.eq_nil_or_concat' other with rfl | ⟨front, x, rfl⟩
    · exact .inl rfl
    · obtain ⟨c, hmem, hweight⟩ := h.reaches front x hclimbs
      exact .inr ⟨c, ⟨_, hmem⟩, hweight⟩
  rw [stationaryIds]
  split
  · rename_i hnone
    rw [hnone] at hbest
    refine ⟨[], List.nil_sublist _, rfl, fun other hclimbs => ?_⟩
    rcases hother other hclimbs with rfl | ⟨c, hmem, -⟩
    · exact Nat.le_refl _
    · exact absurd hmem (hbest c)
  · rename_i c hsome
    rw [hsome] at hbest
    obtain ⟨⟨rank, hmem⟩, htop⟩ := hbest
    obtain ⟨sel, hsub, hids, hweight⟩ := h.selects rank c hmem
    refine ⟨sel, hsub, hids, fun other hclimbs => ?_⟩
    rcases hother other hclimbs with rfl | ⟨d, hd, hle⟩
    · exact Nat.zero_le _
    · rw [hweight]
      exact Nat.le_trans hle (Chain.weight_le_of_not_beats (htop d hd))

end Alignment
end EditHistory
