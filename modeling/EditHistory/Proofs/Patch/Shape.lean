import EditHistory.Proofs.Patch.Trivial

/-! The shape of the patch between two texts. Its removals are the blocks of the previous text that do not
stay, its additions those of the current text, each of them once and in order; what is cut is pasted, and
a deletion never meets an insertion at one position. -/
namespace EditHistory
namespace Edit

variable {τ : Type}

/-- The number under which an edit cuts a range. -/
def cutBlock? : Edit τ → Option Nat
  | .cut _ _ block => some block
  | .full _ | .insert .. | .delete .. | .replace .. | .paste .. => none

/-- The number of the range that an edit pastes. -/
def pastedBlock? : Edit τ → Option Nat
  | .paste _ block => some block
  | .full _ | .insert .. | .delete .. | .replace .. | .cut .. => none

/-- The target position that an edit names. -/
def targetStart? : Edit τ → Option Nat
  | .insert start _ | .paste start _ => some start
  | .full _ | .delete .. | .replace .. | .cut .. => none

/-- The edit puts some units in. -/
def adds : Edit τ → Bool
  | .insert .. | .replace .. | .paste .. => true
  | .full _ | .delete .. | .cut .. => false

end Edit

namespace Patch

/-- What can be relied on in a patch that was computed, beyond what it takes to apply. -/
structure Shape (patch : Patch) (previous : Text) : Prop where
  isFull_eq_false : ∀ e ∈ patch, e.isFull = false
  cut_once : (patch.filterMap Edit.cutBlock?).Nodup
  pasted_once : (patch.filterMap Edit.pastedBlock?).Nodup
  cut_iff_pasted : ∀ block,
    block ∈ patch.filterMap Edit.cutBlock? ↔ block ∈ patch.filterMap Edit.pastedBlock?
  removals_pos : ∀ x ∈ removals patch, 0 < x.length
  removals_within : ∀ x ∈ removals patch, x.start + x.length ≤ previous.length
  removals_ascending : (removals patch).Pairwise fun x y => x.start + x.length ≤ y.start
  texts_ne_nil : ∀ e ∈ patch, ∀ text, e.text? = some text → text ≠ []
  starts_ascending : (patch.filterMap Edit.targetStart?).Pairwise (· < ·)
  /-- Between a deletion and an insertion side by side, units of the previous text are copied. -/
  spaced : ∀ earlier x y later, patch = earlier ++ x :: y :: later → x.Opposes y →
    ∃ clips r, addCuts previous [] patch = .ok clips ∧
      (earlier ++ [x]).foldlM (Rebuild.step previous.toArray clips) .start = .ok r ∧
      r.CopiesBefore previous clips y

theorem filterMap_cutBlock? (patch : Patch) :
    patch.filterMap Edit.cutBlock? = (removals patch).filterMap Removal.block := by
  rw [removals, List.filterMap_filterMap]
  congr 1
  funext e
  cases e <;> rfl

/-- What only edits that put something in have can be read off those alone. -/
theorem filterMap_filter_adds {α : Type} {f : Edit Text → Option α} (hf : ∀ e, e.adds = false → f e = none)
    (patch : Patch) : (patch.filter Edit.adds).filterMap f = patch.filterMap f := by
  rw [List.filterMap_filter]
  congr 1
  funext e
  cases hadds : e.adds with
  | false => exact (hf e hadds).symm
  | true => rfl

theorem filterMap_pastedBlock? (patch : Patch) :
    patch.filterMap Edit.pastedBlock? = (patch.filter Edit.adds).filterMap Edit.pastedBlock? :=
  (filterMap_filter_adds (fun e he => by cases e <;> first | rfl | cases he) patch).symm

theorem filterMap_targetStart? (patch : Patch) :
    patch.filterMap Edit.targetStart? = (patch.filter Edit.adds).filterMap Edit.targetStart? :=
  (filterMap_filter_adds (fun e he => by cases e <;> first | rfl | cases he) patch).symm

end Patch

namespace Alignment

variable {a b : Text} {stays : Block → Bool}

/-! ## Additions -/

/-- The edit puts in a block of the current text, and nothing else. -/
inductive Adds (b : Text) : Edit Text → Block → Prop where
  | insert {y : Block} (hid : y.id = none) : Adds b (.insert y.start (y.units b)) y
  | paste {y : Block} {id : Nat} (hid : y.id = some id) : Adds b (.paste y.start id) y
  | replace {y : Block} (hid : y.id = none) (start length : Nat) :
    Adds b (.replace start length (y.units b)) y

theorem adds_addition (b : Text) (y : Block) : Adds b (editsFrom.addition b y) y := by
  rw [editsFrom.addition]
  split
  · rename_i hid
    exact .insert hid
  · rename_i id hid
    exact .paste hid

theorem Adds.adds {e : Edit Text} {y : Block} (h : Adds b e y) : e.adds = true := by
  cases h <;> rfl

theorem Adds.cons {e : Edit Text} {es : Patch} {y : Block} {ys : List Block} (h : Adds b e y)
    (hy : ¬ stays y)
    (hrest : List.Forall₂ (Adds b) (es.filter Edit.adds) (ys.filter fun y => !stays y)) :
    List.Forall₂ (Adds b) ((e :: es).filter Edit.adds) ((y :: ys).filter fun y => !stays y) := by
  rw [List.filter_cons_of_pos h.adds, List.filter_cons_of_pos (by simpa using hy)]
  exact .cons h hrest

theorem filter_adds_removal (x : Block) (es : Patch) :
    (editsFrom.removal x :: es).filter Edit.adds = es.filter Edit.adds := by
  rw [editsFrom.removal]
  split <;> rfl

/-- The walk puts in exactly the blocks of the current text that do not stay, in order. -/
theorem additions_editsFrom (hmatched : ∀ z, stays z → z.id.isSome) (as bs : List Block) :
    List.Forall₂ (Adds b) ((editsFrom stays b as bs).filter Edit.adds)
      (bs.filter fun y => !stays y) := by
  fun_induction editsFrom stays b as bs with
  | case1 => exact .nil
  | case2 y bs hy ih => simpa [hy] using ih
  | case3 y bs hy ih => exact (adds_addition b y).cons hy ih
  | case4 x as hx ih => exact ih
  | case5 x as hx ih => rwa [filter_adds_removal]
  | case6 x as y bs hx hy ih => simpa [hy] using ih
  | case7 x as y bs hx hy ih => exact (adds_addition b y).cons hy ih
  | case8 x as y bs hx hnone ih =>
    simp only [Bool.and_eq_true, Option.isNone_iff_eq_none] at hnone
    refine (Adds.replace hnone.2 x.start x.length).cons (fun hy => ?_) ih
    have hsome := hmatched y hy
    simp [hnone.2] at hsome
  | case9 x as y bs hx hsome ih => rwa [filter_adds_removal]

theorem filterMap_pastedBlock?_of_forall₂ {es : Patch} {ys : List Block}
    (h : List.Forall₂ (Adds b) es ys) : es.filterMap Edit.pastedBlock? = ys.filterMap Block.id := by
  induction h with
  | nil => rfl
  | cons hadds _ ih =>
    cases hadds with
    | insert hid | replace hid =>
      rw [List.filterMap_cons_none hid, ← ih]
      rfl
    | paste hid =>
      rw [List.filterMap_cons_some hid, ← ih]
      rfl

/-- The target positions that are named are starts of the blocks that are put in. -/
theorem targetStart?_sublist_of_forall₂ {es : Patch} {ys : List Block}
    (h : List.Forall₂ (Adds b) es ys) :
    (es.filterMap Edit.targetStart?).Sublist (ys.map Block.start) := by
  induction h with
  | nil => exact List.Sublist.refl _
  | cons hadds _ ih =>
    cases hadds with
    | insert | paste => exact ih.cons_cons _
    | replace => exact ih.cons _

/-! ## Cut and pasted blocks -/

theorem filterMap_id_moved (al : Alignment) (blocks : List Block) :
    (blocks.filter fun x => !al.stays x).filterMap Block.id =
      (blocks.filterMap Block.id).filter fun id => !al.stationary.getD id false := by
  rw [List.filterMap_filter, List.filter_filterMap]
  congr 1
  funext x
  cases hid : x.id with
  | none => simp
  | some id => simp [stays, hid, Option.filter]

variable {al : Alignment}

theorem filterMap_cutBlock?_edits (al : Alignment) (b : Text) :
    (al.edits b).filterMap Edit.cutBlock? =
      (al.previous.filterMap Block.id).filter fun id => !al.stationary.getD id false := by
  rw [edits_eq, Patch.filterMap_cutBlock?, removals_editsFrom, List.filterMap_map, ← filterMap_id_moved]
  rfl

theorem filterMap_pastedBlock?_edits (al : Alignment) (b : Text) :
    (al.edits b).filterMap Edit.pastedBlock? =
      (al.current.filterMap Block.id).filter fun id => !al.stationary.getD id false := by
  rw [edits_eq, Patch.filterMap_pastedBlock?, ← filterMap_id_moved]
  exact filterMap_pastedBlock?_of_forall₂ (additions_editsFrom (fun _ => isSome_of_stays) _ _)

/-! ## The patch of a sound alignment -/

theorem exists_of_mem_removals {x : Patch.Removal} (h : x ∈ Patch.removals (al.edits b)) :
    ∃ y ∈ al.previous, x.start = y.start ∧ x.length = y.length := by
  rw [edits_eq, removals_editsFrom] at h
  obtain ⟨y, hy, rfl⟩ := List.mem_map.mp h
  exact ⟨y, List.mem_of_mem_filter hy, rfl, rfl⟩

theorem Sound.removals_ascending (h : al.Sound a b) :
    (Patch.removals (al.edits b)).Pairwise fun x y => x.start + x.length ≤ y.start := by
  rw [edits_eq, removals_editsFrom, List.pairwise_map]
  refine ((Block.pairwise_of_tile h.previous_tile).filter _).imp fun {x y} hxy => ?_
  rw [Block.start_add_length hxy.1]
  exact hxy.2

theorem Sound.starts_ascending (h : al.Sound a b) :
    ((al.edits b).filterMap Edit.targetStart?).Pairwise (· < ·) := by
  rw [edits_eq, Patch.filterMap_targetStart?]
  refine List.Pairwise.sublist (targetStart?_sublist_of_forall₂
    (additions_editsFrom (fun _ => isSome_of_stays) _ _)) ?_
  refine List.pairwise_map.mpr (((Block.pairwise_of_tile h.current_tile).filter _).imp fun hxy => ?_)
  exact Nat.lt_of_lt_of_le hxy.1 hxy.2

/-- Along any sound alignment the edits have the shape of a computed patch. -/
theorem Sound.shape_edits (h : al.Sound a b) : (al.edits b).Shape a where
  isFull_eq_false := fun e he => (comes_of_mem_editsFrom e he).isFull_eq_false
  cut_once := by
    rw [filterMap_cutBlock?_edits]
    exact (h.previous_ids.nodup_iff.mpr List.nodup_range).filter _
  pasted_once := by
    rw [filterMap_pastedBlock?_edits]
    exact (h.current_ids.nodup_iff.mpr List.nodup_range).filter _
  cut_iff_pasted := by
    intro block
    rw [filterMap_cutBlock?_edits, filterMap_pastedBlock?_edits]
    exact ((h.previous_ids.trans h.current_ids.symm).filter _).mem_iff
  removals_pos := by
    intro x hx
    obtain ⟨y, hy, -, hlength⟩ := exists_of_mem_removals hx
    have hbounds := Block.tile_bounds h.previous_tile hy
    rw [hlength, Block.length]
    omega
  removals_within := by
    intro x hx
    obtain ⟨y, hy, hstart, hlength⟩ := exists_of_mem_removals hx
    obtain ⟨-, hlt, hle⟩ := Block.tile_bounds h.previous_tile hy
    rwa [hstart, hlength, Block.start_add_length hlt]
  removals_ascending := h.removals_ascending
  texts_ne_nil := by
    intro e he text htext
    obtain ⟨y, hy, rfl⟩ := (comes_of_mem_editsFrom e he).exists_of_text? htext
    obtain ⟨-, hlt, hle⟩ := Block.tile_bounds h.current_tile hy
    rw [← List.length_pos_iff, Block.length_units hlt hle, Block.length]
    omega
  starts_ascending := h.starts_ascending
  spaced := by
    intro earlier x y later hpatch hopposes
    obtain ⟨clips, r, hclips, hrun, -⟩ := h.exists_spacedRun
    rw [hpatch] at hrun
    obtain ⟨middle, hmiddle, hcopies⟩ := hrun.exists_copiesBefore hopposes
    exact ⟨clips, middle, hclips, hmiddle, hcopies⟩

end Alignment

/-- The patch between two texts holds no whole text, cuts and pastes the same blocks and each of them once,
removes non-empty ranges one behind the other, adds non-empty texts at ascending positions, and copies
units of the previous text wherever a deletion and an insertion stand side by side. This holds for any
threshold of the search, zero included, and so for any threshold of the settings. -/
theorem Patch.shape_between (threshold : Nat) (previous current : Text) :
    (ofTexts threshold previous current).Shape previous ∧
      (between threshold previous current).Shape previous :=
  ⟨(Alignment.sound_ofTexts threshold previous current).shape_edits,
    (Alignment.sound_compute threshold previous current).shape_edits⟩

end EditHistory
