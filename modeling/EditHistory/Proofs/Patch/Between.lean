import EditHistory.Proofs.Patch.Walk

/-! The patch between two texts, applied to the first, gives the second. The blocks that stay are
paired by their numbers, and every block that is pasted is cut somewhere in the previous text. -/
namespace EditHistory
namespace Alignment

open Patch (Clipboard Rebuild cuts)

variable {al : Alignment} {a b : Text}

/-- The blocks that the walk leaves in place. -/
def stays (al : Alignment) (x : Block) : Bool := x.id.any fun id => al.stationary.getD id false

theorem edits_eq (al : Alignment) (b : Text) :
    al.edits b = editsFrom al.stays b al.previous al.current := rfl

theorem isSome_of_stays {x : Block} (h : al.stays x) : x.id.isSome := by
  cases hid : x.id with
  | none => simp [stays, hid] at h
  | some id => rfl

theorem map_id_stays (al : Alignment) (blocks : List Block) :
    (blocks.filter al.stays).map Block.id =
      ((blocks.filterMap Block.id).filter (al.stationary.getD · false)).map some := by
  induction blocks with
  | nil => rfl
  | cons x rest ih =>
    cases hid : x.id with
    | none => simp [stays, hid, ih]
    | some id =>
      have hstays : al.stays x = al.stationary.getD id false := by simp [stays, hid]
      by_cases hflag : al.stationary.getD id false
      · rw [List.filter_cons_of_pos (hstays.trans hflag), List.filterMap_cons_some hid,
          List.filter_cons_of_pos (a := id) hflag, List.map_cons, List.map_cons, hid, ih]
      · rw [List.filter_cons_of_neg (hstays ▸ hflag), List.filterMap_cons_some hid,
          List.filter_cons_of_neg (a := id) hflag, ih]

/-- Blocks of equal numbers in equal places hold equal units. -/
theorem forall₂_units {xs ys : List Block} (hids : xs.map Block.id = ys.map Block.id)
    (hsome : ∀ x ∈ xs, x.id.isSome)
    (hunits : ∀ x ∈ xs, ∀ y ∈ ys, ∀ id, x.id = some id → y.id = some id → x.units a = y.units b) :
    List.Forall₂ (fun x y => x.units a = y.units b) xs ys := by
  induction xs generalizing ys with
  | nil =>
    obtain rfl := List.map_eq_nil_iff.mp hids.symm
    exact .nil
  | cons x xs ih =>
    cases ys with
    | nil => simp at hids
    | cons y ys =>
      obtain ⟨hid, hids⟩ := List.cons.inj hids
      obtain ⟨id, hx⟩ := Option.isSome_iff_exists.mp (hsome x (by simp))
      refine .cons (hunits x (by simp) y (by simp) id hx (hid ▸ hx)) (ih hids ?_ ?_)
      · exact fun z hz => hsome z (by simp [hz])
      · exact fun z hz w hw => hunits z (by simp [hz]) w (by simp [hw])

theorem Sound.forall₂_stays (h : al.Sound a b) :
    List.Forall₂ (fun x y => x.units a = y.units b) (al.previous.filter al.stays)
      (al.current.filter al.stays) := by
  refine forall₂_units ?_ (fun x hx => isSome_of_stays (List.mem_filter.mp hx).2) ?_
  · rw [map_id_stays, map_id_stays, al.filter_stationary h.previous_ids h.current_ids]
  · intro x hx y hy
    exact h.units_eq x (List.mem_of_mem_filter hx) y (List.mem_of_mem_filter hy)

/-- An edit that the walk through some blocks may give. -/
inductive Comes (b : Text) (as bs : List Block) : Edit Text → Prop where
  | removal {x : Block} (hx : x ∈ as) : Comes b as bs (editsFrom.removal x)
  | addition {y : Block} (hy : y ∈ bs) : Comes b as bs (editsFrom.addition b y)
  | replace {x y : Block} (hx : x ∈ as) (hy : y ∈ bs) :
    Comes b as bs (.replace x.start x.length (y.units b))

theorem Comes.mono {as as' bs bs' : List Block} {e : Edit Text} (h : Comes b as bs e)
    (ha : as ⊆ as') (hb : bs ⊆ bs') : Comes b as' bs' e := by
  cases h with
  | removal hx => exact .removal (ha hx)
  | addition hy => exact .addition (hb hy)
  | replace hx hy => exact .replace (ha hx) (hb hy)

theorem Comes.isFull_eq_false {as bs : List Block} {e : Edit Text} (h : Comes b as bs e) :
    e.isFull = false := by
  cases h with
  | @removal x hx => cases hid : x.id <;> simp [editsFrom.removal, hid, Edit.isFull]
  | @addition y hy => cases hid : y.id <;> simp [editsFrom.addition, hid, Edit.isFull]
  | replace hx hy => rfl

/-- A text that the walk puts in holds the units of a block of the current text. -/
theorem Comes.exists_of_text? {as bs : List Block} {e : Edit Text} (h : Comes b as bs e) {text : Text}
    (htext : e.text? = some text) : ∃ y ∈ bs, text = y.units b := by
  cases h with
  | @removal x hx => cases hid : x.id <;> simp [editsFrom.removal, hid, Edit.text?] at htext
  | @addition y hy =>
    cases hid : y.id with
    | none => exact ⟨y, hy, by simpa [editsFrom.addition, hid, Edit.text?, eq_comm] using htext⟩
    | some id => simp [editsFrom.addition, hid, Edit.text?] at htext
  | @replace x y hx hy => exact ⟨y, hy, (Option.some.inj htext).symm⟩

theorem comes_of_mem_editsFrom {keep : Block → Bool} {as bs : List Block} :
    ∀ e ∈ editsFrom keep b as bs, Comes b as bs e := by
  fun_induction editsFrom keep b as bs with
  | case1 => simp
  | case2 y bs hy ih => exact fun e he => (ih e he).mono (by simp) (by simp)
  | case3 y bs hy ih =>
    refine List.forall_mem_cons.mpr ⟨.addition (by simp), ?_⟩
    intro e he
    exact (ih e he).mono (by simp) (by simp)
  | case4 x as hx ih => exact fun e he => (ih e he).mono (by simp) (by simp)
  | case5 x as hx ih =>
    refine List.forall_mem_cons.mpr ⟨.removal (by simp), ?_⟩
    intro e he
    exact (ih e he).mono (by simp) (by simp)
  | case6 x as y bs hx hy ih => exact fun e he => (ih e he).mono (by simp) (by simp)
  | case7 x as y bs hx hy ih =>
    refine List.forall_mem_cons.mpr ⟨.addition (by simp), ?_⟩
    intro e he
    exact (ih e he).mono (by simp) (by simp)
  | case8 x as y bs hx hnone ih =>
    refine List.forall_mem_cons.mpr ⟨.replace (by simp) (by simp), ?_⟩
    intro e he
    exact (ih e he).mono (by simp) (by simp)
  | case9 x as y bs hx hsome ih =>
    refine List.forall_mem_cons.mpr ⟨.removal (by simp), ?_⟩
    intro e he
    exact (ih e he).mono (by simp) (by simp)

/-- A range that an edit of the walk cuts is a block of the previous text. -/
theorem exists_of_comes_cut {as bs : List Block} {start length id : Nat}
    (h : Comes b as bs (.cut start length id)) : ∃ x ∈ as, x.start = start ∧ x.length = length := by
  generalize he : Edit.cut start length id = e at h
  cases h with
  | @removal x hx =>
    simp only [editsFrom.removal] at he
    split at he
    · simp at he
    · cases he
      exact ⟨x, hx, rfl, rfl⟩
  | @addition y hy =>
    simp only [editsFrom.addition] at he
    split at he <;> simp at he
  | replace hx hy => simp at he

/-- What is pasted into the current text is cut out of the previous one. -/
theorem Sound.mem_cuts (h : al.Sound a b) {y : Block} (hy : y ∈ al.current)
    (hmove : ¬ al.stays y) {id : Nat} (hid : y.id = some id) :
    (id, y.units b) ∈ cuts a (al.edits b) := by
  have hmem : id ∈ al.previous.filterMap Block.id := by
    refine (h.previous_ids.trans h.current_ids.symm).mem_iff.mpr ?_
    exact List.mem_filterMap.mpr ⟨y, hy, hid⟩
  obtain ⟨x, hx, hxid⟩ := List.mem_filterMap.mp hmem
  have hxmove : ¬ al.stays x := by
    simpa only [stays, hxid, hid] using hmove
  have hunits := h.units_eq x hx y hy id hxid hid
  rw [edits_eq, cuts_editsFrom]
  refine List.mem_filterMap.mpr ⟨x, List.mem_filter.mpr ⟨hx, by simpa using hxmove⟩, ?_⟩
  rw [hxid, ← hunits]
  rfl

theorem Sound.nodup_cuts (h : al.Sound a b) : ((cuts a (al.edits b)).map Prod.fst).Nodup := by
  have hnodup : (al.previous.filterMap Block.id).Nodup :=
    h.previous_ids.nodup_iff.mpr List.nodup_range
  have hfst : (fun x : Block => (x.id.map fun id => (id, x.units a)).map Prod.fst) = Block.id := by
    funext x
    cases x.id <;> rfl
  rw [edits_eq, cuts_editsFrom, List.map_filterMap, hfst]
  exact hnodup.sublist ((List.filter_sublist).filterMap _)

/-- Along any sound alignment the cut ranges come to the clipboard, and with it the edits make a spaced run
that ends with the current text. -/
theorem Sound.exists_spacedRun (h : al.Sound a b) : ∃ clips r,
    Patch.addCuts a [] (al.edits b) = .ok clips ∧
      Rebuild.SpacedRun a clips none .start (al.edits b) r ∧ r.Reaches a b a.length b.length := by
  have hin : ∀ start length block, .cut start length block ∈ al.edits b →
      start + length ≤ a.length := by
    intro start length block hmem
    obtain ⟨x, hx, rfl, rfl⟩ := exists_of_comes_cut (comes_of_mem_editsFrom _ hmem)
    obtain ⟨-, hlt, hle⟩ := Block.tile_bounds h.previous_tile hx
    rwa [Block.start_add_length hlt]
  have hadd : Patch.addCuts a [] (al.edits b) = .ok ((cuts a (al.edits b)).reverse ++ []) :=
    Patch.addCuts_eq hin h.nodup_cuts fun _ _ => rfl
  rw [List.append_nil] at hadd
  have hclips : ∀ y ∈ al.current, ¬ al.stays y → ∀ id, y.id = some id →
      (cuts a (al.edits b)).reverse.lookup id = some (y.units b) := by
    intro y hy hmove id hid
    refine Patch.lookup_of_mem ?_ (List.mem_reverse.mpr (h.mem_cuts hy hmove hid))
    rw [List.map_reverse]
    exact List.nodup_reverse.mpr h.nodup_cuts
  have hbefore : ∀ e ∈ (none : Option (Edit Text)),
      Rebuild.start.cursor < 0 ∨ Parted al.stays al.previous al.current e := nofun
  obtain ⟨r, hrun, hreach⟩ := spacedRun_editsFrom h.previous_tile h.current_tile h.forall₂_stays
    (fun z hz => isSome_of_stays hz) hclips (Rebuild.reaches_start a b) hbefore
  exact ⟨_, r, hadd, hrun, hreach⟩

/-- Along any sound alignment the edits lead from the previous text to the current one. -/
theorem Sound.apply_edits (h : al.Sound a b) : (al.edits b).apply a = .ok b := by
  obtain ⟨clips, r, hadd, hrun, hreach⟩ := h.exists_spacedRun
  simp only [Patch.apply, hadd, bind, Except.bind]
  rw [hrun.foldlM_eq]
  exact congrArg Except.ok hreach.finish

end Alignment

/-- The patch between two texts, applied to the first, gives exactly the second. -/
theorem Patch.apply_between (threshold : Nat) (previous current : Text) :
    (Patch.between threshold previous current).apply previous = .ok current :=
  (Alignment.sound_compute threshold previous current).apply_edits

end EditHistory
