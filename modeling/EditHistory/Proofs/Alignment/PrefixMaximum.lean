import EditHistory.Alignment.PrefixMaximum
import Mathlib.Logic.Basic

/-! The tree of prefix maxima answers as a search through all chains that were entered would. A node
holds the best chain of a range of ranks; entering a chain touches exactly the nodes whose range has
its rank, and the ranges that a query looks at make up all ranks below it. -/
namespace EditHistory

/-! ## Lowest bits -/

theorem clearLowestBit_two_mul (n : Nat) : clearLowestBit (2 * n) = 2 * clearLowestBit n := by
  cases n with
  | zero => rfl
  | succ n =>
    refine Nat.eq_of_testBit_eq fun i => ?_
    have hpred : 2 * (n + 1) - 1 = 2 * n + 1 := by omega
    rw [clearLowestBit, clearLowestBit, hpred, Nat.testBit_and]
    cases i with
    | zero => simp
    | succ i =>
      have hhalf : (2 * n + 1) / 2 = n := by omega
      simp [Nat.testBit_succ, hhalf]

theorem clearLowestBit_two_mul_add_one (n : Nat) : clearLowestBit (2 * n + 1) = 2 * n := by
  refine Nat.eq_of_testBit_eq fun i => ?_
  rw [clearLowestBit, Nat.add_sub_cancel, Nat.testBit_and]
  cases i with
  | zero => simp
  | succ i =>
    have hhalf : (2 * n + 1) / 2 = n := by omega
    simp [Nat.testBit_succ, hhalf]

theorem lowestBit_two_mul (n : Nat) : lowestBit (2 * n) = 2 * lowestBit n := by
  rw [lowestBit, lowestBit, clearLowestBit_two_mul, Nat.mul_sub]

theorem lowestBit_two_mul_add_one (n : Nat) : lowestBit (2 * n + 1) = 1 := by
  rw [lowestBit, clearLowestBit_two_mul_add_one, Nat.add_sub_cancel_left]

/-- The nodes behind the first one on the way of an update are those on the way from the second one. -/
theorem clearLowestBit_lt_iff {i k : Nat} (hpos : 0 < i) (hlt : i < k) :
    clearLowestBit k < i ↔ clearLowestBit k < i + lowestBit i ∧ i + lowestBit i ≤ k := by
  induction k using Nat.strongRecOn generalizing i with
  | ind k ih =>
    -- both numbers without their last bit, unless that bit decides
    have hhalf (n : Nat) : ∃ a, n = 2 * a ∨ n = 2 * a + 1 := ⟨n / 2, by omega⟩
    obtain ⟨a, rfl | rfl⟩ := hhalf k <;> obtain ⟨b, rfl | rfl⟩ := hhalf i
    · have h := ih a (by omega) (i := b) (by omega) (by omega)
      rw [clearLowestBit_two_mul, lowestBit_two_mul]
      omega
    · rw [clearLowestBit_two_mul, lowestBit_two_mul_add_one]
      omega
    · have := lowestBit_pos (i := b) (by omega)
      rw [clearLowestBit_two_mul_add_one, lowestBit_two_mul]
      omega
    · rw [clearLowestBit_two_mul_add_one, lowestBit_two_mul_add_one]
      omega

namespace Chain

/-! ## The best of some chains -/

theorem not_beats_trans {x y z : Chain} (hxy : ¬ x.beats y) (hyz : ¬ y.beats z) : ¬ x.beats z := by
  simp only [beats, Bool.or_eq_true, Bool.and_eq_true, decide_eq_true_eq, beq_iff_eq] at *
  omega

theorem not_beats_of_beats {x y : Chain} (h : x.beats y) : ¬ y.beats x := by
  simp only [beats, Bool.or_eq_true, Bool.and_eq_true, decide_eq_true_eq, beq_iff_eq] at *
  omega

theorem not_beats_self (x : Chain) : ¬ x.beats x := fun h => not_beats_of_beats h h

theorem weight_le_of_not_beats {x y : Chain} (h : ¬ x.beats y) : x.weight ≤ y.weight := by
  simp only [beats, Bool.or_eq_true, Bool.and_eq_true, decide_eq_true_eq, beq_iff_eq] at h
  omega

/-- A chain of a kind that no other one of the kind beats, or none where there is none. -/
def IsBestOf (kind : Chain → Prop) : Option Chain → Prop
  | none => ∀ c, ¬ kind c
  | some c => kind c ∧ ∀ d, kind d → ¬ d.beats c

theorem isBestOf_congr {kind kind' : Chain → Prop} (h : ∀ c, kind c ↔ kind' c) {x : Option Chain}
    (hx : IsBestOf kind x) : IsBestOf kind' x := by
  obtain rfl : kind = kind' := funext fun c => propext (h c)
  exact hx

theorem isBestOf_singleton (c : Chain) : IsBestOf (· = c) (some c) :=
  ⟨rfl, fun _ hd => hd ▸ not_beats_self c⟩

/-- The better of two best chains is the best of both kinds. -/
theorem IsBestOf.best {kind kind' : Chain → Prop} {x y : Option Chain} (hx : IsBestOf kind x)
    (hy : IsBestOf kind' y) : IsBestOf (fun c => kind c ∨ kind' c) (Chain.best x y) := by
  cases x with
  | none => exact isBestOf_congr (fun c => (or_iff_right (hx c)).symm) hy
  | some x =>
    cases y with
    | none => exact isBestOf_congr (fun c => (or_iff_left (hy c)).symm) hx
    | some y =>
      obtain ⟨hxk, hxbest⟩ := hx
      obtain ⟨hyk, hybest⟩ := hy
      by_cases h : y.beats x
      · rw [Chain.best, if_pos h]
        refine ⟨.inr hyk, fun d hd => hd.elim (fun hd => ?_) (hybest d)⟩
        exact not_beats_trans (hxbest d hd) (not_beats_of_beats h)
      · rw [Chain.best, if_neg h]
        refine ⟨.inl hxk, fun d hd => hd.elim (hxbest d) fun hd => ?_⟩
        exact not_beats_trans (hybest d hd) h

/-- Entering a chain makes it or the best one before it the best of all. -/
theorem IsBestOf.enter {entries : List (Nat × Chain)} {x : Option Chain}
    (h : IsBestOf (fun c => ∃ rank, (rank, c) ∈ entries) x) (rank : Nat) (chain : Chain) :
    IsBestOf (fun c => ∃ k, (k, c) ∈ entries ++ [(rank, chain)]) (Chain.best x (some chain)) := by
  refine isBestOf_congr (fun c => ?_) (h.best (isBestOf_singleton chain))
  simp only [List.mem_append, List.mem_singleton, Prod.mk.injEq, exists_or]
  exact or_congr_right ⟨fun hc => ⟨rank, rfl, hc⟩, fun ⟨_, _, hc⟩ => hc⟩

end Chain

namespace PrefixMaximum

variable {nodes : Array (Option Chain)} {tree : PrefixMaximum} {n rank : Nat}
  {entries : List (Nat × Chain)} {chain : Chain}

/-! ## Entering a chain -/

theorem size_updateFrom (chain : Chain) (nodes : Array (Option Chain)) (i : Nat) :
    (updateFrom chain nodes i).size = nodes.size := by
  fun_induction updateFrom chain nodes i with
  | case1 nodes i hi hpos ih => rw [ih, Array.size_set]
  | case2 => rfl

/-- An update improves the nodes on its way and leaves all others alone. -/
theorem getD_updateFrom_eq {i k : Nat} (hpos : 0 < i) (hk : k < nodes.size) :
    (updateFrom chain nodes i).getD k none =
      if clearLowestBit k < i ∧ i ≤ k then Chain.best (nodes.getD k none) (some chain)
      else nodes.getD k none := by
  fun_induction updateFrom chain nodes i with
  | case1 nodes i hi hstep ih =>
    rw [ih (by omega) (by rwa [Array.size_set])]
    rcases Nat.lt_trichotomy i k with hlt | rfl | hgt
    · have hset : (nodes.set i (Chain.best nodes[i] (some chain))).getD k none = nodes.getD k none := by
        rw [Array.getD_eq_getD_getElem?, Array.getElem?_set_ne hi.2 (Nat.ne_of_lt hlt),
          ← Array.getD_eq_getD_getElem?]
      have hway := clearLowestBit_lt_iff hpos hlt
      rw [hset]
      refine if_congr ?_ rfl rfl
      rw [hway, and_iff_left (Nat.le_of_lt hlt)]
    · rw [if_neg (by omega), if_pos ⟨clearLowestBit_lt hpos, Nat.le_refl _⟩]
      simp [Array.getD, hi.2]
    · rw [if_neg (by omega), if_neg (by omega), Array.getD_eq_getD_getElem?,
        Array.getElem?_set_ne hi.2 (by omega), ← Array.getD_eq_getD_getElem?]
  | case2 nodes i hout => rw [if_neg (by omega)]

/-- Every node keeps the best of the chains that were entered at the ranks of its range. -/
structure Holds (tree : PrefixMaximum) (n : Nat) (entries : List (Nat × Chain)) : Prop where
  size_eq : tree.nodes.size = n + 1
  node : ∀ i, 0 < i → i ≤ n → Chain.IsBestOf
    (fun c => ∃ rank, clearLowestBit i ≤ rank ∧ rank < i ∧ (rank, c) ∈ entries)
    (tree.nodes.getD i none)

theorem holds_empty (n : Nat) : (empty n).Holds n [] where
  size_eq := by simp [empty]
  node i hpos hle := by
    have hnone : (empty n).nodes.getD i none = none := by simp [empty, Array.getD]
    rw [hnone]
    rintro c ⟨rank, -, -, hmem⟩
    cases hmem

theorem Holds.update (h : tree.Holds n entries) (rank : Nat) (chain : Chain) :
    (tree.update rank chain).Holds n (entries ++ [(rank, chain)]) where
  size_eq := (size_updateFrom _ _ _).trans h.size_eq
  node i hpos hle := by
    have hsize : i < tree.nodes.size := by rw [h.size_eq]; omega
    have hold := h.node i hpos hle
    rw [PrefixMaximum.update, getD_updateFrom_eq (Nat.succ_pos rank) hsize]
    by_cases hway : clearLowestBit i < rank + 1 ∧ rank + 1 ≤ i
    · rw [if_pos hway]
      refine Chain.isBestOf_congr (fun c => ?_) (hold.best (Chain.isBestOf_singleton chain))
      simp only [List.mem_append, List.mem_singleton, Prod.mk.injEq]
      constructor
      · rintro (⟨k, hk, hlt, hmem⟩ | rfl)
        · exact ⟨k, hk, hlt, .inl hmem⟩
        · exact ⟨rank, by omega, by omega, .inr ⟨rfl, rfl⟩⟩
      · rintro ⟨k, hk, hlt, hmem | ⟨-, rfl⟩⟩
        · exact .inl ⟨k, hk, hlt, hmem⟩
        · exact .inr rfl
    · rw [if_neg hway]
      refine Chain.isBestOf_congr (fun c => ?_) hold
      simp only [List.mem_append, List.mem_singleton, Prod.mk.injEq]
      constructor
      · rintro ⟨k, hk, hlt, hmem⟩
        exact ⟨k, hk, hlt, .inl hmem⟩
      · rintro ⟨k, hk, hlt, hmem | ⟨rfl, rfl⟩⟩
        · exact ⟨k, hk, hlt, hmem⟩
        · exact absurd ⟨by omega, by omega⟩ hway

/-! ## Asking for a chain -/

/-- With the best chain from `i` on in hand, what is left to look at are the ranks below `i`. -/
theorem Holds.queryFrom (h : tree.Holds n entries) {i : Nat} (hi : i ≤ n) (hrank : i ≤ rank)
    {found : Option Chain}
    (hfound : Chain.IsBestOf (fun c => ∃ k, i ≤ k ∧ k < rank ∧ (k, c) ∈ entries) found) :
    Chain.IsBestOf (fun c => ∃ k < rank, (k, c) ∈ entries)
      (PrefixMaximum.queryFrom tree.nodes i found) := by
  fun_induction PrefixMaximum.queryFrom tree.nodes i found with
  | case1 i found hpos hlt ih =>
    refine ih (by omega) (by omega) ?_
    refine Chain.isBestOf_congr (fun c => ?_) (hfound.best (h.node i hpos hi))
    constructor
    · rintro (⟨k, hk, hkr, hmem⟩ | ⟨k, hk, hki, hmem⟩)
      · exact ⟨k, by omega, hkr, hmem⟩
      · exact ⟨k, hk, by omega, hmem⟩
    · rintro ⟨k, hk, hkr, hmem⟩
      by_cases hki : i ≤ k
      · exact .inl ⟨k, hki, hkr, hmem⟩
      · exact .inr ⟨k, hk, by omega, hmem⟩
  | case2 i found hzero =>
    refine Chain.isBestOf_congr (fun c => ?_) hfound
    refine exists_congr fun k => ?_
    have hle : i ≤ k := by omega
    simp only [hle, true_and]

/-- A query gives the best of all chains that were entered at smaller ranks. -/
theorem Holds.query (h : tree.Holds n entries) (hrank : rank ≤ n) :
    Chain.IsBestOf (fun c => ∃ k < rank, (k, c) ∈ entries) (tree.query rank) := by
  refine h.queryFrom hrank (Nat.le_refl _) ?_
  rintro c ⟨k, hle, hlt, -⟩
  omega

/-! ## A sequence of updates -/

/-- The tree for the ranks below `n` after some updates. -/
def enter (n : Nat) (updates : List (Nat × Chain)) : PrefixMaximum :=
  updates.foldl (fun tree update => tree.update update.1 update.2) (empty n)

theorem Holds.foldl (h : tree.Holds n entries) (updates : List (Nat × Chain)) :
    (updates.foldl (fun tree update => tree.update update.1 update.2) tree).Holds n
      (entries ++ updates) := by
  induction updates generalizing tree entries with
  | nil => rwa [List.append_nil]
  | cons update rest ih => simpa using ih (h.update update.1 update.2)

theorem holds_enter (n : Nat) (updates : List (Nat × Chain)) : (enter n updates).Holds n updates :=
  (holds_empty n).foldl updates

end PrefixMaximum
end EditHistory
