import EditHistory.Proofs.Alignment.Exhaustion
import EditHistory.Proofs.Text.Symbols
import Mathlib.Data.List.Perm.Lattice

/-! Texts that are put together from the same pieces in different orders. Where no two pieces share a unit,
matches start and end at borders between pieces: the common start and the common end hold whole pieces, and
the scan, which starts at such a border, takes a run of pieces that follow one another in both texts. So
the matches take all units of both texts. -/
namespace EditHistory

/-- Pieces of texts, longer than a threshold and without unpaired surrogates, of which no two have a unit
in common. -/
structure Text.Pieces (threshold : Nat) (pieces : List Text) : Prop where
  disjoint : pieces.Pairwise List.Disjoint
  valid : ∀ x ∈ pieces, x.hasUnpaired = false
  long : ∀ x ∈ pieces, threshold < x.length

namespace Text.Pieces

variable {threshold : Nat} {pieces xs ys : List Text} {x y : Text}

theorem perm (h : Pieces threshold pieces) (hperm : xs.Perm pieces) : Pieces threshold xs where
  disjoint := hperm.symm.pairwise h.disjoint List.Disjoint.symm
  valid x hx := h.valid x (hperm.subset hx)
  long x hx := h.long x (hperm.subset hx)

theorem sublist (h : Pieces threshold pieces) (hsub : xs.Sublist pieces) : Pieces threshold xs where
  disjoint := h.disjoint.sublist hsub
  valid x hx := h.valid x (hsub.subset hx)
  long x hx := h.long x (hsub.subset hx)

theorem ne_nil (h : Pieces threshold pieces) (hx : x ∈ pieces) : x ≠ [] :=
  List.ne_nil_of_length_pos (Nat.zero_lt_of_lt (h.long x hx))

theorem eq_or_disjoint (h : Pieces threshold pieces) (hx : x ∈ pieces) (hy : y ∈ pieces) :
    x = y ∨ x.Disjoint y := by
  by_cases heq : x = y
  · exact .inl heq
  · have hsymm : Std.Symm (List.Disjoint (α := UInt16)) := ⟨fun _ _ => List.Disjoint.symm⟩
    exact .inr (h.disjoint.forall hx hy heq)

end Text.Pieces

namespace Block

/-- Filling up adds unmatched blocks only. -/
theorem filter_isSome_fill {blocks : List Block} (h : ∀ x ∈ blocks, x.id.isSome) (start stop : Nat) :
    (fill start stop blocks).filter (fun x => x.id.isSome) = blocks := by
  have hgap (i j : Nat) : (gap i j).filter (fun x => x.id.isSome) = [] := by
    rw [gap]
    split <;> rfl
  induction blocks generalizing start with
  | nil => exact hgap _ _
  | cons b rest ih =>
    rw [fill, List.filter_append, hgap, List.nil_append, List.filter_cons_of_pos (a := b) (h b (by simp)),
      ih fun x hx => h x (by simp [hx])]

/-- Where matched blocks are as long as what they lie in, there is no gap between them. -/
theorem isSome_of_mem_fill {start stop : Nat} {blocks : List Block} (h : ∀ x ∈ blocks, x.id.isSome)
    (htile : Tile start stop (fill start stop blocks)) (hsum : start + sumOf length blocks = stop)
    {x : Block} (hx : x ∈ fill start stop blocks) : x.id.isSome := by
  have hall := sumOf_length_of_tile htile
  have hsplit := sumOf_filter_add length (fun y => y.id.isSome) (fill start stop blocks)
  rw [filter_isSome_fill h] at hsplit
  by_contra hgap
  have hpos : 0 < x.length := Nat.sub_pos_of_lt (tile_bounds htile hx).2.1
  have hmem : x ∈ (fill start stop blocks).filter fun y => !y.id.isSome :=
    List.mem_filter.mpr ⟨hx, by simpa using hgap⟩
  have hle := le_sumOf_of_mem length hmem
  omega

end Block

namespace Alignment

open Text (Pieces)

/-! ## Common starts -/

theorem le_commonStart {a b : Text} {n : Nat} (hn : n ≤ a.length) (h : ∀ k < n, a[k]? = b[k]?) :
    n ≤ commonStart a b := by
  induction n generalizing a b with
  | zero => exact Nat.zero_le _
  | succ n ih =>
    cases a with
    | nil => simp at hn
    | cons u a =>
      cases b with
      | nil => simpa using h 0 (Nat.zero_lt_succ n)
      | cons v b =>
        obtain rfl : u = v := by simpa using h 0 (Nat.zero_lt_succ n)
        rw [commonStart, if_pos rfl]
        refine Nat.succ_le_succ (ih (by simpa using hn) fun k hk => ?_)
        simpa using h (k + 1) (Nat.succ_lt_succ hk)

theorem commonStart_eq_zero {x y : Text} (h : x.Disjoint y) (hx : x ≠ []) (hy : y ≠ []) (a b : Text) :
    commonStart (x ++ a) (y ++ b) = 0 := by
  cases x with
  | nil => exact absurd rfl hx
  | cons u x =>
    cases y with
    | nil => exact absurd rfl hy
    | cons v y =>
      have hne : u ≠ v := by
        rintro rfl
        exact h List.mem_cons_self List.mem_cons_self
      rw [List.cons_append, List.cons_append, commonStart, if_neg hne]

/-- The common start of texts that are made of pieces holds whole pieces. -/
theorem exists_commonStart_flatten {xs ys : List Text} (hxs : ∀ x ∈ xs, x ≠ []) (hys : ∀ y ∈ ys, y ≠ [])
    (h : ∀ x ∈ xs, ∀ y ∈ ys, x = y ∨ x.Disjoint y) :
    ∃ zs xs' ys', xs = zs ++ xs' ∧ ys = zs ++ ys' ∧
      commonStart xs.flatten ys.flatten = zs.flatten.length := by
  induction xs generalizing ys with
  | nil => exact ⟨[], [], ys, rfl, rfl, by simp [commonStart]⟩
  | cons x xs ih =>
    cases ys with
    | nil => exact ⟨[], x :: xs, [], rfl, rfl, by cases (x :: xs).flatten <;> rfl⟩
    | cons y ys =>
      rcases h x (by simp) y (by simp) with rfl | hdisjoint
      · have hrest : ∀ z ∈ xs, ∀ w ∈ ys, z = w ∨ z.Disjoint w :=
          fun z hz w hw => h z (by simp [hz]) w (by simp [hw])
        obtain ⟨zs, xs', ys', rfl, rfl, hlength⟩ := ih (fun z hz => hxs z (by simp [hz]))
          (fun z hz => hys z (by simp [hz])) hrest
        refine ⟨x :: zs, xs', ys', rfl, rfl, ?_⟩
        rw [List.flatten_cons, List.flatten_cons, commonStart_append, hlength, List.flatten_cons,
          List.length_append]
      · refine ⟨[], x :: xs, y :: ys, rfl, rfl, ?_⟩
        rw [List.flatten_cons, List.flatten_cons]
        exact commonStart_eq_zero hdisjoint (hxs x (by simp)) (hys y (by simp)) _ _

/-- Pieces back to front, each of them as well. -/
def mirror (pieces : List Text) : List Text := (pieces.map List.reverse).reverse

theorem flatten_mirror (pieces : List Text) : (mirror pieces).flatten = pieces.flatten.reverse :=
  List.reverse_flatten.symm

theorem mirror_append (xs ys : List Text) : mirror (xs ++ ys) = mirror ys ++ mirror xs := by
  rw [mirror, List.map_append, List.reverse_append]
  rfl

theorem mirror_mirror (pieces : List Text) : mirror (mirror pieces) = pieces := by simp [mirror]

theorem mem_mirror {pieces : List Text} {x : Text} : x ∈ mirror pieces ↔ x.reverse ∈ pieces := by
  simp [mirror]

variable {threshold : Nat} {texts rearranged : List Text}

/-- A border between pieces splits no surrogate pair. -/
theorem splitsPair_border {xs : List Text} (h : ∀ x ∈ xs, x.hasUnpaired = false) (ys : List Text) :
    Text.splitsPair (xs ++ ys).flatten xs.flatten.length = false := by
  rw [List.flatten_append]
  exact Text.splitsPair_append_of_not_hasUnpaired (Text.not_hasUnpaired_flatten h) _

/-- The common end of rearranged pieces holds whole pieces. -/
theorem exists_endLength (h : Pieces threshold texts) (hperm : rearranged.Perm texts) :
    ∃ xs ys zs, texts = xs ++ zs ∧ rearranged = ys ++ zs ∧
      endLength texts.flatten rearranged.flatten = zs.flatten.length := by
  have hne {pieces : List Text} (hpieces : Pieces threshold pieces) : ∀ x ∈ mirror pieces, x ≠ [] :=
    fun x hx => mt List.reverse_eq_nil_iff.mpr (hpieces.ne_nil (mem_mirror.mp hx))
  have hapart : ∀ x ∈ mirror texts, ∀ y ∈ mirror rearranged, x = y ∨ x.Disjoint y := by
    intro x hx y hy
    refine (h.eq_or_disjoint (mem_mirror.mp hx) (hperm.subset (mem_mirror.mp hy))).imp
      (fun heq => List.reverse_injective heq) fun hdisjoint u hu hv => ?_
    exact hdisjoint (List.mem_reverse.mpr hu) (List.mem_reverse.mpr hv)
  obtain ⟨zs, xs, ys, hxs, hys, hlength⟩ :=
    exists_commonStart_flatten (hne h) (hne (h.perm hperm)) hapart
  rw [flatten_mirror, flatten_mirror] at hlength
  have htexts : texts = mirror xs ++ mirror zs := by
    rw [← mirror_append, ← hxs, mirror_mirror]
  have hrearranged : rearranged = mirror ys ++ mirror zs := by
    rw [← mirror_append, ← hys, mirror_mirror]
  have hsame : (mirror zs).flatten.length = zs.flatten.length := by
    rw [flatten_mirror, List.length_reverse]
  have hborder {front : List Text} (hpieces : Pieces threshold (front ++ mirror zs)) :
      Text.splitsPair (front ++ mirror zs).flatten
        ((front ++ mirror zs).flatten.length - (mirror zs).flatten.length) = false := by
    rw [List.flatten_append, List.length_append, Nat.add_sub_cancel, ← List.flatten_append]
    exact splitsPair_border (fun x hx => hpieces.valid x (List.mem_append_left _ hx)) _
  refine ⟨mirror xs, mirror ys, mirror zs, htexts, hrearranged, ?_⟩
  rw [endLength, hlength, ← hsame]
  refine trimEndLength_eq ?_ ?_
  · rw [htexts] at h ⊢
    exact hborder h
  · have hpieces := h.perm hperm
    rw [hrearranged] at hpieces ⊢
    exact hborder hpieces

/-- So does the common start of what is in front of the common end. -/
theorem exists_startLength {xs ys back : List Text} (h : Pieces threshold (xs ++ back))
    (hperm : (ys ++ back).Perm (xs ++ back))
    (hend : endLength (xs ++ back).flatten (ys ++ back).flatten = back.flatten.length) :
    ∃ zs xs' ys', xs = zs ++ xs' ∧ ys = zs ++ ys' ∧
      startLength (xs ++ back).flatten (ys ++ back).flatten = zs.flatten.length := by
  have hpieces := h.perm hperm
  obtain ⟨zs, xs', ys', rfl, rfl, hlength⟩ := exists_commonStart_flatten
    (fun x hx => h.ne_nil (List.mem_append_left back hx))
    (fun y hy => hpieces.ne_nil (List.mem_append_left back hy))
    fun x hx y hy => h.eq_or_disjoint (List.mem_append_left back hx)
      (hperm.subset (List.mem_append_left back hy))
  have htake (front : List Text) :
      (front ++ back).flatten.take ((front ++ back).flatten.length - back.flatten.length) =
        front.flatten := by
    rw [List.flatten_append, List.length_append, Nat.add_sub_cancel, List.take_left]
  refine ⟨zs, xs', ys', rfl, rfl, ?_⟩
  rw [startLength, hend, htake, htake, hlength]
  refine trimStartLength_eq ?_ ?_
  · rw [List.append_assoc]
    exact splitsPair_border (fun x hx => h.valid x (by simp [hx])) _
  · rw [List.append_assoc]
    exact splitsPair_border (fun x hx => h.valid x (by simp [hx])) _

/-! ## The scan -/

/-- From one position on up to another, units read as pieces, and no border between pieces splits a
surrogate pair. -/
structure Spells (units : Array UInt16) (start stop : Nat) (pieces : List Text) : Prop where
  stop_eq : stop = start + pieces.flatten.length
  units_eq : ∀ k < pieces.flatten.length, units[start + k]? = pieces.flatten[k]?
  whole : ∀ xs ys, pieces = xs ++ ys → splitsPairAt units (start + xs.flatten.length) = false

theorem Spells.left {units : Array UInt16} {start stop : Nat} {xs ys : List Text}
    (h : Spells units start stop (xs ++ ys)) : Spells units start (start + xs.flatten.length) xs where
  stop_eq := rfl
  units_eq k hk := by
    have hunit := h.units_eq k (by rw [List.flatten_append, List.length_append]; omega)
    rwa [List.flatten_append, List.getElem?_append_left hk] at hunit
  whole us vs hxs := h.whole us (vs ++ ys) (by rw [hxs, List.append_assoc])

theorem Spells.right {units : Array UInt16} {start stop : Nat} {xs ys : List Text}
    (h : Spells units start stop (xs ++ ys)) : Spells units (start + xs.flatten.length) stop ys where
  stop_eq := by
    rw [h.stop_eq, List.flatten_append, List.length_append, Nat.add_assoc]
  units_eq k hk := by
    have hunit := h.units_eq (xs.flatten.length + k) (by simpa using hk)
    rw [List.flatten_append, List.getElem?_append_right (Nat.le_add_right _ _),
      Nat.add_sub_cancel_left] at hunit
    rwa [Nat.add_assoc]
  whole us vs hys := by
    have hborder := h.whole (xs ++ us) vs (by rw [hys, List.append_assoc])
    rwa [List.flatten_append, List.length_append, ← Nat.add_assoc] at hborder

theorem disjoint_flatten {x : Text} {ys : List Text} (h : ∀ y ∈ ys, x.Disjoint y) :
    x.Disjoint ys.flatten := by
  intro u hx hu
  obtain ⟨y, hy, huy⟩ := List.mem_flatten.mp hu
  exact h y hy hx huy

/-- A piece is found at its own place only. -/
theorem eq_length_of_getElem?_eq {x a b : Text} {i : Nat} (hne : x ≠ []) (ha : x.Disjoint a)
    (hb : x.Disjoint b) (h : ∀ k < x.length, (a ++ (x ++ b))[i + k]? = x[k]?) : i = a.length := by
  have hpos := List.length_pos_iff.mpr hne
  have hge : a.length ≤ i := by
    refine Nat.le_of_not_lt fun hlt => ?_
    have hfirst := h 0 hpos
    rw [Nat.add_zero, List.getElem?_append_left hlt, List.getElem?_eq_getElem hpos] at hfirst
    exact ha (List.getElem_mem hpos) (List.mem_of_getElem? hfirst)
  obtain ⟨d, rfl⟩ := Nat.exists_eq_add_of_le hge
  by_contra hshifted
  -- the first unit behind the piece itself would be one of the piece
  have hk : x.length - d < x.length := by omega
  have hunit := h (x.length - d) hk
  rw [Nat.add_assoc, List.getElem?_append_right (Nat.le_add_right _ _), Nat.add_sub_cancel_left,
    List.getElem?_append_right (by omega), List.getElem?_eq_getElem hk] at hunit
  exact hb (List.getElem_mem hk) (List.mem_of_getElem? hunit)

variable {m : Middle} {pieces rest : List Text} {used : Array Bool} {j : Nat}

/-- Free pieces that follow one another in both texts can be found. -/
theorem finds_of_spells {p : Nat} {zs xs ys : List Text} (hlong : threshold < zs.flatten.length)
    (hge : m.previousStart ≤ p) (hprevious : Spells m.previous p m.previousStop (zs ++ xs))
    (hcurrent : Spells m.current j m.currentStop (zs ++ ys))
    (hfree : ∀ i u, m.previous[i]? = some u → u ∈ (zs ++ ys).flatten → used.getD i false = false) :
    m.Finds threshold used j ⟨p, j, zs.flatten.length⟩ where
  long := hlong
  previous_ge := hge
  previous_le := by
    rw [hprevious.right.stop_eq]
    exact Nat.le_add_right _ _
  current_ge := Nat.le_refl _
  current_le := by
    rw [hcurrent.right.stop_eq]
    exact Nat.le_add_right _ _
  free k hk := by
    have hunit := hprevious.left.units_eq k hk
    rw [List.getElem?_eq_getElem hk] at hunit
    refine hfree _ _ hunit ?_
    rw [List.flatten_append]
    exact List.mem_append_left _ (List.getElem_mem hk)
  units_eq k hk := (hprevious.left.units_eq k hk).trans (hcurrent.left.units_eq k hk).symm
  previous_start := hprevious.whole [] _ rfl
  current_start := hcurrent.whole [] _ rfl
  splits_end := by
    rw [Middle.splits, hprevious.whole zs xs rfl, hcurrent.whole zs ys rfl]
    rfl

/-- What is found lies in the common start of what is behind its place in both texts. -/
theorem le_commonStart_of_finds {p n : Nat} {xs ys : List Text}
    (hprevious : Spells m.previous p m.previousStop xs)
    (hcurrent : Spells m.current j m.currentStop ys) (h : m.Finds threshold used j ⟨p, j, n⟩) :
    n ≤ commonStart xs.flatten ys.flatten := by
  have hpstop := hprevious.stop_eq
  have hcstop := hcurrent.stop_eq
  have hple := h.previous_le
  have hcle := h.current_le
  dsimp only at hple hcle
  refine le_commonStart (by omega) fun k hk => ?_
  rw [← hprevious.units_eq k (by omega), ← hcurrent.units_eq k (by omega)]
  exact h.units_eq k hk

/-- What is found at a border and is long enough for the piece behind it starts at the place of that
piece. -/
theorem previous_eq_of_finds {us vs tail : List Text} {y : Text} {i n : Nat}
    (hpieces : Pieces threshold (us ++ y :: vs))
    (hprevious : Spells m.previous m.previousStart m.previousStop (us ++ y :: vs))
    (hcurrent : Spells m.current j m.currentStop (y :: tail)) (hn : y.length ≤ n)
    (h : m.Finds threshold used j ⟨i, j, n⟩) : i = m.previousStart + us.flatten.length := by
  obtain ⟨d, rfl⟩ := Nat.exists_eq_add_of_le h.previous_ge
  have hstop := hprevious.stop_eq
  have hle := h.previous_le
  dsimp only at hstop hle
  have hdisjoint := hpieces.disjoint
  rw [List.pairwise_append, List.pairwise_cons] at hdisjoint
  have hus : y.Disjoint us.flatten :=
    disjoint_flatten fun x hx => (hdisjoint.2.2 x hx y List.mem_cons_self).symm
  have hvs : y.Disjoint vs.flatten := disjoint_flatten hdisjoint.2.1.1
  have hne : y ≠ [] := hpieces.ne_nil (List.mem_append_right us List.mem_cons_self)
  refine congrArg (m.previousStart + ·) (eq_length_of_getElem?_eq hne hus hvs fun k hk => ?_)
  have hplace := hprevious.units_eq (d + k) (by omega)
  have hunit := h.units_eq k (Nat.lt_of_lt_of_le hk hn)
  have hpiece := hcurrent.units_eq k (by rw [List.flatten_cons, List.length_append]; omega)
  rw [List.flatten_cons, List.getElem?_append_left hk] at hpiece
  rw [List.flatten_append, List.flatten_cons, ← Nat.add_assoc] at hplace
  exact hplace.symm.trans (hunit.trans hpiece)

/-- At a border the longest extension is a run of pieces that follow one another in both texts. -/
theorem exists_longest (hpieces : Pieces threshold pieces)
    (hprevious : Spells m.previous m.previousStart m.previousStop pieces) (hrest : rest ⊆ pieces)
    (hlt : j < m.currentStop) (hcurrent : Spells m.current j m.currentStop rest)
    (hfree : ∀ i u, m.previous[i]? = some u → u ∈ rest.flatten → used.getD i false = false) :
    ∃ i zs rest', rest = zs ++ rest' ∧ threshold < zs.flatten.length ∧
      m.longest used j (m.candidates m.index j) = (i, zs.flatten.length) := by
  obtain ⟨y, tail, rfl⟩ : ∃ y tail, rest = y :: tail := by
    refine List.exists_cons_of_ne_nil ?_
    rintro rfl
    exact absurd hcurrent.stop_eq (Nat.ne_of_gt hlt)
  obtain ⟨us, vs, rfl⟩ := List.append_of_mem (hrest List.mem_cons_self)
  have hplace : Spells m.previous (m.previousStart + us.flatten.length) m.previousStop (y :: vs) :=
    hprevious.right
  have hbehind : y :: vs ⊆ us ++ y :: vs := List.subset_append_right us (y :: vs)
  obtain ⟨zs, vs', rest', hvs, htail, hlength⟩ := exists_commonStart_flatten
    (fun x hx => hpieces.ne_nil (hbehind hx)) (fun x hx => hpieces.ne_nil (hrest hx))
    fun x hx z hz => hpieces.eq_or_disjoint (hbehind hx) (hrest hz)
  have hyle : y.length ≤ zs.flatten.length := by
    rw [← hlength, List.flatten_cons, List.flatten_cons, commonStart_append]
    exact Nat.le_add_right _ _
  have hlong : threshold < zs.flatten.length :=
    Nat.lt_of_lt_of_le (hpieces.long y (hrest List.mem_cons_self)) hyle
  have hfinds : m.Finds threshold used j ⟨m.previousStart + us.flatten.length, j, zs.flatten.length⟩ :=
    finds_of_spells hlong (Nat.le_add_right _ _) (hvs ▸ hplace) (htail ▸ hcurrent) (htail ▸ hfree)
  have hle := Middle.length_le_longest hfinds rfl
  cases hbest : m.longest used j (m.candidates m.index j) with
  | mk i n =>
    rw [hbest] at hle
    have hfound := Middle.finds_of_longest hbest (Nat.lt_of_lt_of_le hlong hle)
    obtain rfl := previous_eq_of_finds hpieces hprevious hcurrent (Nat.le_trans hyle hle) hfound
    have hge : n ≤ zs.flatten.length := hlength ▸ le_commonStart_of_finds hplace hcurrent hfound
    obtain rfl := Nat.le_antisymm hge hle
    exact ⟨_, zs, rest', htail, hlong, rfl⟩

/-- From a border on the scan takes all that is left of the current text. -/
theorem sumOf_scan (hpieces : Pieces threshold pieces)
    (hprevious : Spells m.previous m.previousStart m.previousStop pieces) (hrest : rest ⊆ pieces)
    (hdisjoint : rest.Pairwise List.Disjoint) (hcurrent : Spells m.current j m.currentStop rest)
    (hfree : ∀ i u, m.previous[i]? = some u → u ∈ rest.flatten → used.getD i false = false) :
    sumOf Match.length (m.scan threshold m.index used j) = rest.flatten.length := by
  fun_induction m.scan threshold m.index used j generalizing rest with
  | case1 used j hlt i n hbest hlong ih =>
    obtain ⟨i', zs, rest', rfl, -, hbest'⟩ :=
      exists_longest hpieces hprevious hrest hlt hcurrent hfree
    obtain ⟨rfl, rfl⟩ := Prod.mk.inj (hbest.symm.trans hbest')
    rw [sumOf_cons, List.flatten_append, List.length_append]
    refine congrArg (zs.flatten.length + ·) (ih ?_ ?_ hcurrent.right ?_)
    · exact fun x hx => hrest (List.mem_append_right zs hx)
    · exact (List.pairwise_append.mp hdisjoint).2.1
    · -- what the match takes are units of its pieces, none of which is left
      intro p u hp hu
      rw [Middle.getD_markUsed, hfree p u hp (by simp [hu]), Bool.false_or, decide_eq_false_iff_not]
      rintro ⟨hge, hlast, -⟩
      obtain ⟨k, rfl⟩ := Nat.exists_eq_add_of_le hge
      have hk : k < zs.flatten.length := by omega
      have hunit := (Middle.finds_of_longest hbest hlong).units_eq k hk
      rw [hcurrent.left.units_eq k hk, hp] at hunit
      obtain ⟨x, hx, hux⟩ := List.mem_flatten.mp (List.mem_of_getElem? hunit.symm)
      exact disjoint_flatten ((List.pairwise_append.mp hdisjoint).2.2 x hx) hux hu
  | case2 used j hlt i n hbest hshort ih =>
    obtain ⟨i', zs, rest', rfl, hlong, hbest'⟩ :=
      exists_longest hpieces hprevious hrest hlt hcurrent hfree
    obtain ⟨rfl, rfl⟩ := Prod.mk.inj (hbest.symm.trans hbest')
    exact absurd hlong hshort
  | case3 used j hstop =>
    have hend := hcurrent.stop_eq
    rw [sumOf_nil]
    omega

/-! ## All matches -/

theorem spells_flatten (hvalid : ∀ x ∈ pieces, x.hasUnpaired = false) :
    Spells pieces.flatten.toArray 0 pieces.flatten.length pieces where
  stop_eq := (Nat.zero_add _).symm
  units_eq k hk := by rw [Nat.zero_add, List.getElem?_toArray]
  whole xs ys hpieces := by
    subst hpieces
    rw [Nat.zero_add, splitsPairAt_toArray]
    exact splitsPair_border (fun x hx => hvalid x (List.mem_append_left ys hx)) ys

theorem spells_middle {front xs back : List Text}
    (hvalid : ∀ x ∈ front ++ xs ++ back, x.hasUnpaired = false) :
    Spells (front ++ xs ++ back).flatten.toArray front.flatten.length
      ((front ++ xs ++ back).flatten.length - back.flatten.length) xs := by
  have hall := spells_flatten hvalid
  have hstop : (front ++ xs ++ back).flatten.length - back.flatten.length =
      (front ++ xs).flatten.length := by
    rw [List.flatten_append, List.length_append, Nat.add_sub_cancel]
  have hmiddle := hall.left.right
  rwa [Nat.zero_add, Nat.zero_add, ← hstop] at hmiddle

theorem sumOf_edge (previous current length : Nat) :
    sumOf Match.length (edge previous current length) = length := by
  rw [edge]
  split
  · rfl
  · rw [sumOf_nil]
    omega

/-- The matches of rearranged pieces are as long as the texts. -/
theorem sumOf_matchesOf (h : Pieces threshold texts) (hperm : rearranged.Perm texts) :
    sumOf Match.length (matchesOf threshold texts.flatten rearranged.flatten) = texts.flatten.length := by
  obtain ⟨xs, ys, back, rfl, rfl, hend⟩ := exists_endLength h hperm
  obtain ⟨front, xs, ys, rfl, rfl, hstart⟩ := exists_startLength h hperm hend
  have hmiddle : ys.Perm xs :=
    (List.perm_append_left_iff front).mp ((List.perm_append_right_iff back).mp hperm)
  have hvalid : ∀ y ∈ front ++ ys ++ back, y.hasUnpaired = false := (h.perm hperm).valid
  have hdisjoint : ys.Pairwise List.Disjoint :=
    (h.perm hperm).disjoint.sublist (by simp)
  let a := (front ++ xs ++ back).flatten
  let b := (front ++ ys ++ back).flatten
  have hprevious : Spells (middle a b).previous (middle a b).previousStart (middle a b).previousStop xs := by
    have hspells := spells_middle h.valid
    rwa [← hstart, ← hend] at hspells
  have hcurrent : Spells (middle a b).current (middle a b).currentStart (middle a b).currentStop ys := by
    have hspells := spells_middle hvalid
    rwa [← hstart, ← hend] at hspells
  have hxs : Pieces threshold xs := h.sublist (by simp)
  have hscan : sumOf Match.length ((middle a b).found threshold) = ys.flatten.length :=
    sumOf_scan hxs hprevious hmiddle.subset hdisjoint hcurrent fun i u _ _ => by simp [Array.getD]
  rw [matchesOf, sumOf_append, sumOf_append, sumOf_edge, sumOf_edge, hscan, hstart, hend]
  simp only [List.flatten_append, List.length_append, hmiddle.flatten.length_eq]

/-! ## No gaps -/

theorem sumOf_mapIdx {found : List Match} {side : Match → Nat → Block}
    (hlength : ∀ m id, (side m id).length = m.length) :
    sumOf Block.length (found.mapIdx fun id m => side m id) = sumOf Match.length found := by
  have hf : (fun p : Match × Nat => (side p.1 p.2).length) = fun p => p.1.length := by
    funext p
    exact hlength p.1 p.2
  have hfst := sumOf_map Match.length Prod.fst found.zipIdx
  rw [List.zipIdx_map_fst] at hfst
  rw [List.mapIdx_eq_zipIdx_map, sumOf_map, hf, hfst]

/-- Where matches take as many units as there are, they leave nothing unmatched. -/
theorem isSome_of_mem_side {found : List Match} {stop : Nat} {side : Match → Nat → Block}
    (hid : ∀ m id, (side m id).id = some id) (hlength : ∀ m id, (side m id).length = m.length)
    (htile : Block.Tile 0 stop (Block.fill 0 stop
      ((found.mapIdx fun id m => side m id).mergeSort fun x y => x.start ≤ y.start)))
    (hsum : sumOf Match.length found = stop) {x : Block}
    (hx : x ∈ Block.fill 0 stop
      ((found.mapIdx fun id m => side m id).mergeSort fun x y => x.start ≤ y.start)) :
    x.id.isSome := by
  refine Block.isSome_of_mem_fill (fun y hy => ?_) htile ?_ hx
  · obtain ⟨i, hi, rfl⟩ := List.mem_mapIdx.mp (List.mem_mergeSort.mp hy)
    rw [hid]
    rfl
  · rw [Nat.zero_add, sumOf_perm _ (List.mergeSort_perm _ _), sumOf_mapIdx hlength, hsum]

/-- Rearranged pieces are matched from the first unit to the last. -/
theorem isSome_ofMatches (h : Pieces threshold texts) (hperm : rearranged.Perm texts) :
    let al := ofMatches texts.flatten.length rearranged.flatten.length
      (matchesOf threshold texts.flatten rearranged.flatten)
    (∀ x ∈ al.previous, x.id.isSome) ∧ ∀ y ∈ al.current, y.id.isSome := by
  have hsum := sumOf_matchesOf h hperm
  have hsound : (ofMatches texts.flatten.length rearranged.flatten.length
      (matchesOf threshold texts.flatten rearranged.flatten)).Sound texts.flatten rearranged.flatten :=
    sound_ofMatches (fun _ h => fits_of_mem_matchesOf h) (apart_matchesOf threshold _ _)
  refine ⟨fun x hx => ?_, fun y hy => ?_⟩
  · exact isSome_of_mem_side (fun _ _ => rfl)
      (fun m id => by simp [Match.previousBlock, Block.length]) hsound.previous_tile hsum hx
  · exact isSome_of_mem_side (fun _ _ => rfl)
      (fun m id => by simp [Match.currentBlock, Block.length]) hsound.current_tile
      (hsum.trans hperm.flatten.length_eq.symm) hy

end Alignment
end EditHistory
