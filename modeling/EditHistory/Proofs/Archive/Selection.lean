import EditHistory.Proofs.Archive.Stored

/-! Which versions are stored, told by their numbers. A version is left out exactly where no full diff
is due and its text is the one stored last. -/
namespace EditHistory
namespace Version

variable {interval : Nat} {vs : List Version} {i : Nat}

/-- Versions of revisions that are numbered from one on. -/
def Numbered (vs : List Version) : Prop := vs.map (·.revision.id) = List.range' 1 vs.length

/-- Among the texts of versions that are numbered from one on, of which the ones in `named` are stored,
the one at an index is that of the version stored last before it, and no full diff is due. -/
def IsUnchanged (interval : Nat) (texts : List Text) (named : List Nat) (i : Nat) : Prop :=
  let earlier := named.filter (· ≤ i)
  earlier.length % interval ≠ 0 ∧ texts[i]? = earlier.getLast?.bind fun id => texts[id - 1]?

theorem Numbered.id_getElem (h : Numbered vs) (hi : i < vs.length) : vs[i].revision.id = i + 1 := by
  have hget := congrArg (·[i]?) h
  simpa [hi, List.getElem?_range', Nat.add_comm] using hget

/-- The text of a version is found by its number. -/
theorem Numbered.text_of_mem (h : Numbered vs) {v : Version} (hv : v ∈ vs) :
    (vs.map (·.text))[v.revision.id - 1]? = some v.text := by
  obtain ⟨i, hi, rfl⟩ := List.mem_iff_getElem.mp hv
  simp [h.id_getElem hi, hi]

theorem Numbered.id_le_of_mem_take (h : Numbered vs) {v : Version} (hv : v ∈ vs.take i) :
    v.revision.id ≤ i := by
  obtain ⟨j, hj, rfl⟩ := List.mem_iff_getElem.mp hv
  rw [List.length_take] at hj
  rw [List.getElem_take, h.id_getElem (by omega)]
  omega

theorem Numbered.lt_id_of_mem_drop (h : Numbered vs) {v : Version} (hv : v ∈ vs.drop i) :
    i < v.revision.id := by
  obtain ⟨j, hj, rfl⟩ := List.mem_iff_getElem.mp hv
  rw [List.length_drop] at hj
  rw [List.getElem_drop, h.id_getElem (by omega)]
  omega

/-- What is stored before an index does not depend on what comes from it on. -/
theorem select_take_drop (interval : Nat) (vs : List Version) (i : Nat) :
    select interval 0 [] vs = select interval 0 [] (vs.take i) ++
      select interval (select interval 0 [] (vs.take i)).length
        (lastText [] (select interval 0 [] (vs.take i))) (vs.drop i) := by
  have hsplit := select_append interval 0 [] (vs.take i) (vs.drop i)
  rwa [List.take_append_drop, Nat.zero_add] at hsplit

/-- The numbers up to that of an index are those of the versions stored before it. -/
theorem Numbered.filter_select (h : Numbered vs) (interval i : Nat) :
    ((select interval 0 [] vs).map (·.revision.id)).filter (· ≤ i) =
      (select interval 0 [] (vs.take i)).map (·.revision.id) := by
  rw [select_take_drop interval vs i, List.map_append, List.filter_append]
  have hearly : ∀ id ∈ (select interval 0 [] (vs.take i)).map (·.revision.id), decide (id ≤ i) = true := by
    intro id hid
    obtain ⟨v, hv, rfl⟩ := List.mem_map.mp hid
    exact decide_eq_true (h.id_le_of_mem_take ((select_sublist ..).subset hv))
  have hlate : ∀ id ∈ (select interval (select interval 0 [] (vs.take i)).length
      (lastText [] (select interval 0 [] (vs.take i))) (vs.drop i)).map (·.revision.id),
      ¬ decide (id ≤ i) = true := by
    intro id hid
    obtain ⟨v, hv, rfl⟩ := List.mem_map.mp hid
    have hlt := h.lt_id_of_mem_drop ((select_sublist ..).subset hv)
    rw [decide_eq_true_eq]
    omega
  rw [List.filter_eq_self.mpr hearly, List.filter_eq_nil_iff.mpr hlate, List.append_nil]

/-- The text stored last is the one that the last number names. -/
theorem Numbered.lastText_eq (h : Numbered vs) {earlier : List Version} (hsub : earlier ⊆ vs)
    (hne : earlier ≠ []) : some (lastText [] earlier) =
      (earlier.map (·.revision.id)).getLast?.bind fun id => (vs.map (·.text))[id - 1]? := by
  obtain ⟨v, hlast⟩ := Option.isSome_iff_exists.mp (List.getLast?_isSome.mpr hne)
  rw [lastText_of_getLast? hlast, List.getLast?_map, hlast, Option.map_some, Option.bind_some,
    h.text_of_mem (hsub (List.mem_of_getLast? hlast))]

/-- A version is left out exactly if it is unchanged. -/
theorem Numbered.not_mem_select_iff (h : Numbered vs) (hi : i < vs.length) :
    i + 1 ∉ (select interval 0 [] vs).map (·.revision.id) ↔
      IsUnchanged interval (vs.map (·.text)) ((select interval 0 [] vs).map (·.revision.id)) i := by
  have hsub : select interval 0 [] (vs.take i) ⊆ vs :=
    List.Subset.trans (select_sublist ..).subset (List.take_subset i vs)
  have hlast := h.lastText_eq hsub
  rw [IsUnchanged, h.filter_select, List.length_map]
  generalize hearly : select interval 0 [] (vs.take i) = earlier at *
  have hnotearly : i + 1 ∉ earlier.map (·.revision.id) := by
    intro hmem
    obtain ⟨v, hv, hid⟩ := List.mem_map.mp hmem
    have hle := h.id_le_of_mem_take ((select_sublist ..).subset (hearly ▸ hv))
    omega
  have hstored : i + 1 ∈ (select interval 0 [] vs).map (·.revision.id) ↔
      earlier.length % interval = 0 ∨ vs[i].text ≠ lastText [] earlier := by
    rw [select_take_drop interval vs i, hearly, List.map_append, List.mem_append,
      or_iff_right hnotearly, List.drop_eq_getElem_cons hi, select]
    split
    · rename_i hkeep
      simp [hkeep, h.id_getElem hi]
    · rename_i hdrop
      refine iff_of_false ?_ hdrop
      intro hmem
      obtain ⟨v, hv, hid⟩ := List.mem_map.mp hmem
      have hlt := h.lt_id_of_mem_drop ((select_sublist ..).subset hv)
      omega
  rw [hstored, not_or, Decidable.not_not]
  refine and_congr_right fun hcount => ?_
  have hne : earlier ≠ [] := by
    rintro rfl
    exact hcount (Nat.zero_mod interval)
  rw [← hlast hne]
  simp [hi]

end Version
end EditHistory
