import EditHistory.Proofs.Alignment.Rearranged
import EditHistory.Proofs.Patch.Shape

/-! The patch between two texts that are made of the same pieces in different orders. Where the pieces have
no unit in common and are longer than the threshold, nothing is left unmatched, and a patch without
unmatched blocks only moves blocks: it stores no text. -/
namespace EditHistory

/-- The edit moves a block that both texts have. -/
def Edit.isMove {τ : Type} : Edit τ → Bool
  | .cut .. | .paste .. => true
  | .full _ | .insert .. | .delete .. | .replace .. => false

theorem Edit.text?_of_isMove {τ : Type} {e : Edit τ} (h : e.isMove = true) : e.text? = none := by
  cases e with
  | cut | paste => rfl
  | full | insert | delete | replace => cases h

namespace Alignment

variable {al : Alignment} {b : Text}

theorem isMove_of_removal? (hprevious : ∀ x ∈ al.previous, x.id.isSome) {e : Edit Text}
    (he : e ∈ al.edits b) {x : Patch.Removal} (hx : e.removal? = some x) : e.isMove = true := by
  have hmem : x ∈ Patch.removals (al.edits b) := List.mem_filterMap.mpr ⟨e, he, hx⟩
  rw [edits_eq, removals_editsFrom] at hmem
  obtain ⟨y, hy, rfl⟩ := List.mem_map.mp hmem
  have hid := hprevious y (List.mem_of_mem_filter hy)
  cases e with
  | cut => rfl
  | delete | replace =>
    rw [← (Patch.Removal.mk.inj (Option.some.inj hx)).2.2] at hid
    cases hid
  | full | insert | paste => cases hx

theorem isMove_of_forall₂_adds {es : Patch} {ys : List Block} (h : List.Forall₂ (Adds b) es ys)
    (hys : ∀ y ∈ ys, y.id.isSome) : ∀ e ∈ es, e.isMove = true := by
  induction h with
  | nil => exact nofun
  | @cons e y es ys hadds _ ih =>
    refine List.forall_mem_cons.mpr ⟨?_, ih fun z hz => hys z (by simp [hz])⟩
    have hy := hys y (by simp)
    cases hadds with
    | paste hid => rfl
    | insert hid | replace hid =>
      rw [hid] at hy
      cases hy

/-- Where all blocks are matched there is nothing but moves. -/
theorem isMove_of_mem_edits (hprevious : ∀ x ∈ al.previous, x.id.isSome)
    (hcurrent : ∀ y ∈ al.current, y.id.isSome) {e : Edit Text} (he : e ∈ al.edits b) :
    e.isMove = true := by
  cases hremoval : e.removal? with
  | some x => exact isMove_of_removal? hprevious he hremoval
  | none =>
    have hadds : e.adds = true := by
      have hfull := (comes_of_mem_editsFrom e he).isFull_eq_false
      cases e with
      | insert | paste => rfl
      | full => cases hfull
      | delete | replace | cut => cases hremoval
    refine isMove_of_forall₂_adds (additions_editsFrom (fun _ => isSome_of_stays) _ _) ?_ e
      (List.mem_filter.mpr ⟨he, hadds⟩)
    exact fun y hy => hcurrent y (List.mem_of_mem_filter hy)

end Alignment

namespace Patch

open EditHistory.Alignment (ofMatches matchesOf)

/-- A pure rearrangement of pieces stores no text: all edits are cuts and pastes. The threshold is the one
of the search; the patch between two texts takes one below one for one. -/
theorem between_rearranged {threshold : Nat} {texts rearranged : List Text}
    (hperm : rearranged.Perm texts) (hdisjoint : texts.Pairwise List.Disjoint)
    (hvalid : ∀ x ∈ texts, x.hasUnpaired = false) (hlong : ∀ x ∈ texts, threshold < x.length) :
    (∀ e ∈ (ofMatches texts.flatten.length rearranged.flatten.length
        (matchesOf threshold texts.flatten rearranged.flatten)).edits rearranged.flatten,
      e.isMove = true ∧ e.text? = none) ∧
    ((∀ x ∈ texts, 1 < x.length) →
      ∀ e ∈ Patch.between threshold texts.flatten rearranged.flatten,
        e.isMove = true ∧ e.text? = none) := by
  have hmoves {limit : Nat} (hpieces : Text.Pieces limit texts) :
      ∀ e ∈ (ofMatches texts.flatten.length rearranged.flatten.length
          (matchesOf limit texts.flatten rearranged.flatten)).edits rearranged.flatten,
        e.isMove = true ∧ e.text? = none := by
    intro e he
    obtain ⟨hprevious, hcurrent⟩ := Alignment.isSome_ofMatches hpieces hperm
    have hmove := Alignment.isMove_of_mem_edits hprevious hcurrent he
    exact ⟨hmove, Edit.text?_of_isMove hmove⟩
  refine ⟨hmoves ⟨hdisjoint, hvalid, hlong⟩, fun hone => ?_⟩
  exact hmoves ⟨hdisjoint, hvalid, fun x hx => Nat.max_lt.mpr ⟨hlong x hx, hone x hx⟩⟩

/-- The last of three pieces comes to the front. The first one repeats itself, and in the second one there
is a surrogate pair. -/
theorem between_rearranged_last_first :
    let texts : List Text := [[0x61, 0x62, 0x61, 0x62, 0x61], [0x63, 0xD83D, 0xDE00], [0x64, 0x65, 0x64]]
    let rearranged : List Text :=
      [[0x64, 0x65, 0x64], [0x61, 0x62, 0x61, 0x62, 0x61], [0x63, 0xD83D, 0xDE00]]
    rearranged.Perm texts ∧ texts.Pairwise List.Disjoint ∧ (∀ x ∈ texts, x.hasUnpaired = false) ∧
      (∀ x ∈ texts, 2 < x.length) ∧
      ∀ e ∈ Patch.between 2 texts.flatten rearranged.flatten, e.isMove = true ∧ e.text? = none := by
  intro texts rearranged
  have hperm : rearranged.Perm texts := by decide
  have hdisjoint : texts.Pairwise List.Disjoint := by simp [texts, List.Disjoint]
  have hvalid : ∀ x ∈ texts, x.hasUnpaired = false := by decide
  have hlong : ∀ x ∈ texts, 2 < x.length := by decide
  exact ⟨hperm, hdisjoint, hvalid, hlong,
    (between_rearranged hperm hdisjoint hvalid hlong).2 (by decide)⟩

end Patch
end EditHistory
