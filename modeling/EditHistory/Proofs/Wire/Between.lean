import EditHistory.Proofs.Patch.Between
import EditHistory.Proofs.Wire.Body

/-! The patch between two texts can be written. No edit carries half a surrogate pair that is whole
in the current text, and no number in an edit exceeds what the texts allow for. -/
namespace EditHistory

/-- The bytes of the text can be counted in a field, in whatever charset. -/
def Text.IsShort (t : Text) : Prop := 3 * t.length ≤ maxFieldValue

theorem Text.isShort_of_lt {t : Text} (h : 3 * t.length < 1 <<< 31) : t.IsShort :=
  Nat.le_of_lt_succ h

/-- A text that a charset holds has a form in it, of three bytes a unit at most. -/
theorem Charset.Holds.exists_encode {charset : Charset} {t : Text} (h : charset.Holds t) :
    ∃ bytes, charset.encode t = some bytes ∧ bytes.length ≤ 3 * t.length := by
  cases henc : charset.encode t with
  | none => exact absurd h (Charset.encode_eq_none_iff.mp henc)
  | some bytes => exact ⟨bytes, rfl, Charset.length_encode_le henc⟩

/-- As many blocks as there are units cover a range at most. -/
theorem Block.add_length_le_of_tile {start stop : Nat} {blocks : List Block}
    (h : Block.Tile start stop blocks) : start + blocks.length ≤ stop := by
  induction blocks generalizing start with
  | nil => exact Nat.le_of_eq h
  | cons b rest ih =>
    obtain ⟨rfl, hlt, hrest⟩ := h
    have := ih hrest
    rw [List.length_cons]
    omega

namespace Alignment

variable {al : Alignment} {a b : Text} {charset : Charset}

theorem Sound.matched_le (h : al.Sound a b) : al.matched ≤ a.length := by
  have hcount := h.previous_ids.length_eq
  have hids : (al.previous.filterMap Block.id).length ≤ al.previous.length :=
    List.length_filterMap_le ..
  have hblocks := Block.add_length_le_of_tile h.previous_tile
  rw [List.length_range] at hcount
  omega

/-- The numbers of a block that an edit may carry are at most `n`. -/
structure Small (n : Nat) (x : Block) : Prop where
  start_le : x.start ≤ n
  length_le : x.length ≤ n
  id_le : ∀ id, x.id = some id → id ≤ n

theorem Sound.small_previous (h : al.Sound a b) {x : Block} (hx : x ∈ al.previous) :
    Small a.length x := by
  obtain ⟨-, hlt, hle⟩ := Block.tile_bounds h.previous_tile hx
  refine ⟨by omega, Nat.le_trans (Nat.sub_le ..) hle, ?_⟩
  intro id hid
  have hmem := h.previous_ids.mem_iff.mp (List.mem_filterMap.mpr ⟨x, hx, hid⟩)
  exact Nat.le_trans (Nat.le_of_lt (List.mem_range.mp hmem)) h.matched_le

theorem Sound.small_current (h : al.Sound a b) {y : Block} (hy : y ∈ al.current) :
    Small (max a.length b.length) y := by
  obtain ⟨-, hlt, hle⟩ := Block.tile_bounds h.current_tile hy
  refine ⟨by omega, ?_, ?_⟩
  · exact Nat.le_trans (Nat.le_trans (Nat.sub_le ..) hle) (Nat.le_max_right ..)
  · intro id hid
    have hmem := h.current_ids.mem_iff.mp (List.mem_filterMap.mpr ⟨y, hy, hid⟩)
    have hlt := List.mem_range.mp hmem
    have := h.matched_le
    omega

/-- The edits for small blocks whose units have a form in the charset can be put into the charset,
and their fields are small. -/
theorem exists_mapText?_of_comes {n : Nat} {as bs : List Block} {e : Edit Text}
    (h : Comes b as bs e) (ha : ∀ x ∈ as, Small n x) (hb : ∀ y ∈ bs, Small n y)
    (henc : ∀ y ∈ bs, ∃ bytes, charset.encode (y.units b) = some bytes ∧ bytes.length ≤ n) :
    ∃ e', e.mapText? charset.encode = some e' ∧ ∀ f ∈ e'.fields, f.2 ≤ n := by
  cases h with
  | @removal x hx =>
    obtain ⟨hstart, hlength, hid⟩ := ha x hx
    cases hnumber : x.id with
    | none =>
      refine ⟨.delete x.start x.length, by simp [editsFrom.removal, hnumber, Edit.mapText?], ?_⟩
      simp [hstart, hlength]
    | some id =>
      refine ⟨.cut x.start x.length id, by simp [editsFrom.removal, hnumber, Edit.mapText?], ?_⟩
      simp [hstart, hlength, hid id hnumber]
  | @addition y hy =>
    obtain ⟨hstart, hlength, hid⟩ := hb y hy
    cases hnumber : y.id with
    | none =>
      obtain ⟨bytes, hbytes, hle⟩ := henc y hy
      refine ⟨.insert y.start bytes, ?_, ?_⟩
      · simp [editsFrom.addition, hnumber, Edit.mapText?, hbytes]
      · simp [hstart, hle]
    | some id =>
      refine ⟨.paste y.start id, by simp [editsFrom.addition, hnumber, Edit.mapText?], ?_⟩
      simp [hstart, hid id hnumber]
  | @replace x y hx hy =>
    obtain ⟨hstart, hlength, -⟩ := ha x hx
    obtain ⟨bytes, hbytes, hle⟩ := henc y hy
    refine ⟨.replace x.start x.length bytes, by simp [Edit.mapText?, hbytes], ?_⟩
    simp [hstart, hlength, hle]

/-- What a charset holds of a text, it holds of every block of the text. -/
theorem exists_encode_units {threshold : Nat} (hheld : charset.Holds b) {y : Block}
    (hy : y ∈ (compute threshold a b).current) :
    ∃ bytes, charset.encode (y.units b) = some bytes ∧ bytes.length ≤ 3 * b.length := by
  have hsound := sound_compute threshold a b
  obtain ⟨hstart, hstop⟩ := splitsPair_ofTexts hy
  obtain ⟨-, hlt, hle⟩ := Block.tile_bounds hsound.current_tile hy
  rw [← Block.start_add_length hlt] at hstop
  have hunits : charset.Holds (y.units b) := fun hutf8 =>
    Text.hasUnpaired_segment (hheld hutf8) hstart hstop
  have hcount : (y.units b).length ≤ b.length := by
    rw [Block.length_units hlt hle]
    exact Nat.le_trans (Nat.sub_le ..) hle
  obtain ⟨bytes, henc, hlen⟩ := hunits.exists_encode
  exact ⟨bytes, henc, by omega⟩

end Alignment

/-- The patch between two texts is prepared for a body, unless the charset cannot hold the current
text or a text is too long. -/
theorem Body.exists_prepare_between {charset : Charset} {a b : Text} (hheld : charset.Holds b)
    (ha : a.IsShort) (hb : b.IsShort) (threshold : Nat) :
    ∃ w es, Body.prepare charset (Patch.between threshold a b) = .ok (w, es) := by
  have hsound := Alignment.sound_compute threshold a b
  refine Body.exists_prepareFrom (fun e he => ?_) 0 Widths.zero
  have hcomes : Alignment.Comes b (Alignment.compute threshold a b).previous
      (Alignment.compute threshold a b).current e := Alignment.comes_of_mem_editsFrom e he
  have hmono {n : Nat} {x : Block} (h : Alignment.Small n x) (hn : n ≤ maxFieldValue) :
      Alignment.Small maxFieldValue x :=
    ⟨Nat.le_trans h.start_le hn, Nat.le_trans h.length_le hn, fun id hid =>
      Nat.le_trans (h.id_le id hid) hn⟩
  rw [Text.IsShort] at ha hb
  refine Alignment.exists_mapText?_of_comes hcomes (fun x hx => ?_) (fun y hy => ?_) (fun y hy => ?_)
  · exact hmono (hsound.small_previous hx) (by omega)
  · exact hmono (hsound.small_current hy) (by omega)
  · obtain ⟨bytes, henc, hle⟩ := Alignment.exists_encode_units hheld hy
    exact ⟨bytes, henc, Nat.le_trans hle hb⟩

/-- A whole text is prepared for a body on the same terms. -/
theorem Body.exists_prepare_full {charset : Charset} {t : Text} (hheld : charset.Holds t)
    (ht : t.IsShort) : ∃ w es, Body.prepare charset [.full t] = .ok (w, es) := by
  obtain ⟨bytes, henc, hlen⟩ := hheld.exists_encode
  refine Body.exists_prepareFrom (List.forall_mem_singleton.mpr ⟨.full bytes, ?_, ?_⟩) 0 Widths.zero
  · simp [Edit.mapText?, henc]
  · simp [Nat.le_trans hlen ht]

end EditHistory
