import EditHistory.Proofs.Alignment.Chains
import EditHistory.Proofs.Alignment.Matches
import EditHistory.Proofs.Alignment.PrefixMaximum
import Mathlib.Data.List.MinMax

/-! The survey finds the predecessor of every block in the tree of prefix maxima. The plain search
looks at all earlier blocks of smaller rank instead, which takes quadratic time, and picks the same
ones: the first of the heaviest. -/
namespace EditHistory
namespace Alignment

/-! ## The plain search -/

/-- A matched block in the plain search, at the end of the selection found for it. -/
structure Link where
  id : Nat
  rank : Nat
  /-- The total length of the selection. -/
  weight : Nat
  /-- The position of the block before this one in the selection. -/
  back : Option Nat
deriving DecidableEq, Repr

/-- The first of the heaviest links whose ranks pass, with its position. -/
def heaviest (passes : Nat → Bool) (links : List Link) : Option (Link × Nat) :=
  (links.zipIdx.filter fun l => passes l.1.rank).argmax fun l => l.1.weight

/-- A block behind the heaviest one of smaller rank. -/
def linkTo (links : List Link) (rank id length : Nat) : Link :=
  match heaviest (· < rank) links with
  | none => ⟨id, rank, length, none⟩
  | some (l, position) => ⟨id, rank, length + l.weight, some position⟩

theorem rank_linkTo (links : List Link) (rank id length : Nat) :
    (linkTo links rank id length).rank = rank := by
  rw [linkTo]
  split <;> rfl

def addLink (rankOf : Array Nat) (links : List Link) (block : Nat × Nat) : List Link :=
  links ++ [linkTo links (rankOf.getD block.1 0) block.1 block.2]

/-- The matched blocks of the current text, each with the predecessor that the plain search finds. -/
def links (al : Alignment) : List Link := al.weighted.foldl (addLink al.ranks) []

/-- The numbers of the blocks on the way back from a position. -/
inductive Trail (links : List Link) : Option Nat → List Nat → Prop
  | stop : Trail links none []
  | step {position : Nat} {l : Link} {ids : List Nat} :
    links[position]? = some l → Trail links l.back ids → Trail links (some position) (l.id :: ids)

/-- The positions of the predecessors that a survey finds for the blocks that are left. -/
def Survey.predecessors (rankOf : Array Nat) (s : Survey) : List (Nat × Nat) → List (Option Nat)
  | [] => []
  | block :: rest =>
    (s.tree.query (rankOf.getD block.1 0)).map Chain.position ::
      (s.add rankOf block).predecessors rankOf rest

variable {links : List Link} {l : Link} {position : Nat} {passes : Nat → Bool}

theorem Trail.append {start : Option Nat} {ids : List Nat} (h : Trail links start ids)
    (more : List Link) : Trail (links ++ more) start ids := by
  induction h with
  | stop => exact .stop
  | step hlink _ ih =>
    obtain ⟨hlt, -⟩ := List.getElem?_eq_some_iff.mp hlink
    exact .step (by rw [List.getElem?_append_left hlt, hlink]) ih

theorem mem_passing_iff :
    (l, position) ∈ links.zipIdx.filter (fun l => passes l.1.rank) ↔
      links[position]? = some l ∧ passes l.rank := by
  rw [List.mem_filter, List.mem_zipIdx_iff_getElem?]

theorem pairwise_passing :
    (links.zipIdx.filter fun l => passes l.1.rank).Pairwise fun x y => x.2 < y.2 := by
  have hall : (links.zipIdx.map Prod.snd).Pairwise (· < ·) := by
    rw [List.zipIdx_map_snd]
    exact List.pairwise_lt_range'
  exact (List.pairwise_map.mp hall).filter _

/-- Along a list in which a number ascends, what stands earlier has the smaller one. -/
theorem le_of_idxOf_le {α : Type} [DecidableEq α] {f : α → Nat} {xs : List α}
    (hascend : xs.Pairwise fun x y => f x < f y) {x y : α} (hx : x ∈ xs) (hy : y ∈ xs)
    (h : xs.idxOf x ≤ xs.idxOf y) : f x ≤ f y := by
  rcases Nat.eq_or_lt_of_le h with heq | hlt
  · exact Nat.le_of_eq (congrArg f ((List.idxOf_inj hx).mp heq))
  · have hless := List.pairwise_iff_getElem.mp hascend _ _
      (List.idxOf_lt_length_of_mem hx) (List.idxOf_lt_length_of_mem hy) hlt
    rw [List.getElem_idxOf, List.getElem_idxOf] at hless
    exact Nat.le_of_lt hless

theorem not_passes_of_heaviest (h : heaviest passes links = none)
    (hlink : links[position]? = some l) : ¬ passes l.rank := by
  intro hpasses
  have hmem := mem_passing_iff.mpr ⟨hlink, hpasses⟩
  rw [List.argmax_eq_none.mp h] at hmem
  cases hmem

/-- No link that passes is heavier than the one found, nor as heavy and earlier. -/
theorem heaviest_spec (h : heaviest passes links = some (l, position)) :
    (links[position]? = some l ∧ passes l.rank) ∧
      ∀ other p, links[p]? = some other → passes other.rank →
        other.weight ≤ l.weight ∧ (l.weight ≤ other.weight → position ≤ p) := by
  obtain ⟨hmem, hmost, hfirst⟩ := List.argmax_eq_some_iff.mp h
  refine ⟨mem_passing_iff.mp hmem, fun other p hlink hpasses => ?_⟩
  have hother := mem_passing_iff.mpr ⟨hlink, hpasses⟩
  refine ⟨hmost _ hother, fun hle => ?_⟩
  exact le_of_idxOf_le pairwise_passing hmem hother (hfirst _ hother hle)

/-! ## The survey follows the plain search -/

/-- A chain is what the plain search leads to at the position of the chain. -/
structure Link.IsEndOf (links : List Link) (l : Link) (c : Chain) : Prop where
  link : links[c.position]? = some l
  weight_eq : c.weight = l.weight
  trail : Trail links (some c.position) c.ids

theorem Link.IsEndOf.append {c : Chain} (h : l.IsEndOf links c) (more : List Link) :
    l.IsEndOf (links ++ more) c where
  link := by
    obtain ⟨hlt, -⟩ := List.getElem?_eq_some_iff.mp h.link
    rw [List.getElem?_append_left hlt, h.link]
  weight_eq := h.weight_eq
  trail := h.trail.append more

/-- The survey and the plain search have found the same, or neither has found anything. -/
def SameEnd (links : List Link) : Option Chain → Option (Link × Nat) → Prop :=
  Option.Rel fun c l => l.1.IsEndOf links c ∧ c.position = l.2

theorem SameEnd.trail {x : Option Chain} {found : Option (Link × Nat)} :
    SameEnd links x found →
      Trail links (found.map Prod.snd) (match x with | none => [] | some c => c.ids) := by
  intro h
  cases h with
  | none => exact .stop
  | some hboth =>
    obtain ⟨hend, hposition⟩ := hboth
    rw [Option.map_some, ← hposition]
    exact hend.trail

namespace Survey

/-- The chains that were entered are those that the plain search leads to, one at every position. -/
structure Follows (n : Nat) (links : List Link) (entries : List (Nat × Chain)) (s : Survey) :
    Prop where
  holds : s.tree.Holds n entries
  best : Chain.IsBestOf (fun c => ∃ rank, (rank, c) ∈ entries) s.best
  position_eq : s.position = links.length
  link : ∀ rank c, (rank, c) ∈ entries → ∃ l : Link, l.IsEndOf links c ∧ l.rank = rank
  chain : ∀ (l : Link) p, links[p]? = some l →
    ∃ c, (l.rank, c) ∈ entries ∧ l.IsEndOf links c ∧ c.position = p

theorem follows_start (n : Nat) : (Survey.start n).Follows n [] [] where
  holds := PrefixMaximum.holds_empty n
  best := by
    rintro c ⟨rank, h⟩
    cases h
  position_eq := rfl
  link rank c h := by cases h
  chain l p h := by cases h

variable {rankOf : Array Nat} {n : Nat} {entries : List (Nat × Chain)} {s : Survey} {rank : Nat}

/-- The best of the chains that were entered at some ranks ends with the heaviest link there. -/
theorem Follows.sameEnd_heaviest (h : s.Follows n links entries) {x : Option Chain}
    (hx : Chain.IsBestOf (fun c => ∃ k, passes k ∧ (k, c) ∈ entries) x) :
    SameEnd links x (heaviest passes links) := by
  cases hfound : heaviest passes links with
  | none =>
    cases x with
    | none => exact .none
    | some c =>
      obtain ⟨⟨k, hpasses, hmem⟩, -⟩ := hx
      obtain ⟨l, hend, rfl⟩ := h.link k c hmem
      exact absurd hpasses (not_passes_of_heaviest hfound hend.link)
  | some found =>
    obtain ⟨l, p⟩ := found
    obtain ⟨⟨hlink, hpasses⟩, hmost⟩ := heaviest_spec hfound
    obtain ⟨d, hd, hdend, rfl⟩ := h.chain l p hlink
    cases x with
    | none => exact absurd ⟨l.rank, hpasses, hd⟩ (hx d)
    | some c =>
      obtain ⟨⟨k, hk, hmem⟩, hbest⟩ := hx
      obtain ⟨other, hend, rfl⟩ := h.link k c hmem
      obtain ⟨hweight, hfirst⟩ := hmost other c.position hend.link hk
      -- neither beats the other one, so both have the same weight and position
      have hunbeaten := hbest d ⟨l.rank, hpasses, hd⟩
      simp only [Chain.beats, Bool.or_eq_true, Bool.and_eq_true, decide_eq_true_eq, beq_iff_eq,
        hdend.weight_eq, hend.weight_eq] at hunbeaten
      have hposition : c.position = d.position := by omega
      have hsame : other = l := by
        have hlinks := hend.link
        rw [hposition, hlink] at hlinks
        exact (Option.some.inj hlinks).symm
      exact .some ⟨hsame ▸ hend, hposition⟩

theorem Follows.sameEnd_best (h : s.Follows n links entries) :
    SameEnd links s.best (heaviest (fun _ => true) links) := by
  refine h.sameEnd_heaviest (Chain.isBestOf_congr (fun c => ?_) h.best)
  simp only [true_and]

/-- The chain to a block is what the plain search leads to. -/
theorem Follows.isEndOf_chainTo (h : s.Follows n links entries) (hrank : rank ≤ n) (id length : Nat) :
    (linkTo links rank id length).IsEndOf (links ++ [linkTo links rank id length])
        (s.chainTo rank id length) ∧
      (s.tree.query rank).map Chain.position = (linkTo links rank id length).back := by
  have hsame : SameEnd links (s.tree.query rank) (heaviest (· < rank) links) := by
    refine h.sameEnd_heaviest (Chain.isBestOf_congr (fun c => ?_) (h.holds.query hrank))
    simp only [decide_eq_true_eq]
  have hlast (l : Link) : (links ++ [l])[s.position]? = some l := by
    rw [h.position_eq, List.getElem?_concat_length]
  rw [linkTo, chainTo]
  generalize s.tree.query rank = x, heaviest (· < rank) links = found at hsame
  cases hsame with
  | none => exact ⟨⟨hlast _, rfl, .step (hlast _) .stop⟩, rfl⟩
  | @some c l hboth =>
    obtain ⟨l, p⟩ := l
    obtain ⟨hend, rfl⟩ := hboth
    refine ⟨⟨hlast _, ?_, .step (hlast _) (hend.trail.append _)⟩, rfl⟩
    exact congrArg (length + ·) hend.weight_eq

theorem position_chainTo (s : Survey) (rank id length : Nat) :
    (s.chainTo rank id length).position = s.position := by
  rw [chainTo]
  split <;> rfl

theorem Follows.add (h : s.Follows n links entries) (block : Nat × Nat)
    (hrank : rankOf.getD block.1 0 ≤ n) :
    ∃ entries', (s.add rankOf block).Follows n (addLink rankOf links block) entries' := by
  let rank := rankOf.getD block.1 0
  let chain := s.chainTo rank block.1 block.2
  let l := linkTo links rank block.1 block.2
  have hend : l.IsEndOf (links ++ [l]) chain := (h.isEndOf_chainTo hrank block.1 block.2).1
  have hrankOf : l.rank = rank := rank_linkTo links rank block.1 block.2
  refine ⟨entries ++ [(rank, chain)], h.holds.update rank chain, h.best.enter rank chain, ?_, ?_, ?_⟩
  · rw [addLink, List.length_append, ← h.position_eq]
    rfl
  · intro k c hmem
    rcases List.mem_append.mp hmem with hold | hnew
    · obtain ⟨old, hold, hk⟩ := h.link k c hold
      exact ⟨old, hold.append _, hk⟩
    · obtain ⟨rfl, rfl⟩ := Prod.mk.inj (List.mem_singleton.mp hnew)
      exact ⟨l, hend, hrankOf⟩
  · intro x p hlink
    rcases Nat.lt_or_ge p links.length with hlt | hge
    · rw [addLink, List.getElem?_append_left hlt] at hlink
      obtain ⟨c, hmem, hold, hp⟩ := h.chain x p hlink
      exact ⟨c, List.mem_append_left _ hmem, hold.append _, hp⟩
    · rw [addLink, List.getElem?_append_right hge, List.getElem?_singleton] at hlink
      obtain ⟨hzero, hx⟩ := Option.ite_none_right_eq_some.mp hlink
      obtain rfl : l = x := Option.some.inj hx
      refine ⟨chain, ?_, hend, ?_⟩
      · exact List.mem_append_right _ (List.mem_singleton.mpr (congrArg (·, chain) hrankOf))
      · rw [position_chainTo, h.position_eq]
        omega

/-- Block after block, the survey finds the predecessors of the plain search. -/
theorem Follows.foldl (h : s.Follows n links entries) (blocks : List (Nat × Nat))
    (hranks : ∀ block ∈ blocks, rankOf.getD block.1 0 ≤ n) :
    (∃ entries', (blocks.foldl (Survey.add rankOf) s).Follows n
      (blocks.foldl (addLink rankOf) links) entries') ∧
      links.map Link.back ++ s.predecessors rankOf blocks =
        (blocks.foldl (addLink rankOf) links).map Link.back := by
  induction blocks generalizing s links entries with
  | nil => exact ⟨⟨entries, h⟩, List.append_nil _⟩
  | cons block rest ih =>
    obtain ⟨hrank, hrest⟩ := List.forall_mem_cons.mp hranks
    obtain ⟨middle, hmiddle⟩ := h.add block hrank
    obtain ⟨hend, hback⟩ := ih hmiddle hrest
    refine ⟨hend, ?_⟩
    rw [List.foldl_cons, ← hback, predecessors, (h.isEndOf_chainTo hrank block.1 block.2).2, addLink,
      List.map_append, List.append_assoc]
    rfl

end Survey

/-- A query for a rank answers with the best of all updates at smaller ranks, whatever the updates
before it were. Hence every block gets the predecessor of the plain search, and the blocks that stay
are those on its way back from the heaviest block. The tree has nodes for the ranks up to the number of
matched blocks, and the ranks of the blocks of any two texts are among them. -/
theorem predecessors_eq_plain :
    (∀ (n : Nat) (updates : List (Nat × Chain)) (rank : Nat), rank ≤ n →
      Chain.IsBestOf (fun c => ∃ k < rank, (k, c) ∈ updates)
        ((PrefixMaximum.enter n updates).query rank)) ∧
    (∀ al : Alignment, (∀ block ∈ al.weighted, al.ranks.getD block.1 0 ≤ al.matched) →
      (Survey.start al.matched).predecessors al.ranks al.weighted = al.links.map Link.back ∧
      Trail al.links ((heaviest (fun _ => true) al.links).map Prod.snd) al.stationaryIds) ∧
    ∀ threshold a b, ∀ block ∈ (compute threshold a b).weighted,
      (compute threshold a b).ranks.getD block.1 0 ≤ (compute threshold a b).matched := by
  refine ⟨fun n updates rank hrank => ?_, fun al hranks => ?_, fun threshold a b => ?_⟩
  · exact (PrefixMaximum.holds_enter n updates).query hrank
  · obtain ⟨⟨entries, h⟩, hback⟩ :=
      (Survey.follows_start al.matched).foldl al.weighted hranks
    exact ⟨hback, h.sameEnd_best.trail⟩
  · have hsound := sound_compute threshold a b
    exact ranks_le_matched _ hsound.previous_ids hsound.current_ids

/-- The first two blocks change places; the third one can stay behind either. -/
def swapped : Alignment where
  previous := [⟨0, 2, some 0⟩, ⟨2, 4, some 1⟩, ⟨4, 7, some 2⟩]
  current := [⟨0, 2, some 1⟩, ⟨2, 4, some 0⟩, ⟨4, 7, some 2⟩]
  matched := 3

theorem predecessors_eq_plain_swapped :
    (2 ≤ 3 ∧ Chain.IsBestOf (fun c => ∃ k < 2, (k, c) ∈ [(1, ⟨2, 0, [1]⟩), (0, ⟨2, 1, [0]⟩)])
      ((PrefixMaximum.enter 3 [(1, ⟨2, 0, [1]⟩), (0, ⟨2, 1, [0]⟩)]).query 2)) ∧
    (∀ block ∈ swapped.weighted, swapped.ranks.getD block.1 0 ≤ swapped.matched) ∧
    (Survey.start 3).predecessors swapped.ranks swapped.weighted = [none, none, some 0] ∧
    Trail swapped.links (some 2) swapped.stationaryIds := by
  have hranks : ∀ block ∈ swapped.weighted, swapped.ranks.getD block.1 0 ≤ swapped.matched := by decide
  obtain ⟨hback, htrail⟩ := predecessors_eq_plain.2.1 swapped hranks
  have hlinks : swapped.links.map Link.back = [none, none, some 0] := by decide
  exact ⟨⟨by decide, predecessors_eq_plain.1 3 _ 2 (by decide)⟩, hranks, hback.trans hlinks, htrail⟩

end Alignment
end EditHistory
