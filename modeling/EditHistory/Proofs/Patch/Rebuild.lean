import EditHistory.Patch.Apply
import EditHistory.Proofs.Result
import EditHistory.Proofs.Text.Segment
import Mathlib.Data.List.Nodup

/-! What each step of a rebuild does to the text built so far. The cursor may lag behind the
position that has been dealt with: what lies between belongs to the output as it is, and is copied
when the next edit comes. -/
namespace EditHistory
namespace Patch

theorem checkRange_eq_ok {start length textLength : Nat} {u : Unit} :
    checkRange start length textLength = .ok u ↔ start + length ≤ textLength := by
  rw [checkRange]
  split <;> simp_all

namespace Rebuild

/-- All that stepping over a range can come to. -/
theorem skip_ok {previous : Array UInt16} {start length : Nat} {r r' : Rebuild}
    (h : r.skip previous start length = .ok r') :
    start + length ≤ previous.size ∧ r.cursor ≤ start ∧
      r' = ⟨start + length, (r.copyTo previous start).output⟩ := by
  obtain ⟨u, hrange, hrest⟩ := bind_eq_ok.mp h
  dsimp only at hrest
  split at hrest
  · cases hrest
  next hcursor =>
    exact ⟨checkRange_eq_ok.mp hrange, Nat.le_of_not_lt hcursor, (Except.ok.inj hrest).symm⟩

/-- All that filling up the output can come to. -/
theorem fillTo_ok {previous : Array UInt16} {target : Nat} {r r' : Rebuild}
    (h : r.fillTo previous target = .ok r') :
    r.output.size ≤ target ∧ r.cursor + (target - r.output.size) ≤ previous.size ∧
      r' = r.copyTo previous (r.cursor + (target - r.output.size)) := by
  rw [fillTo] at h
  split at h
  · cases h
  next hbehind =>
    obtain ⟨u, hrange, hend⟩ := bind_eq_ok.mp h
    exact ⟨Nat.le_of_not_lt hbehind, checkRange_eq_ok.mp hrange, (Except.ok.inj hend).symm⟩

/-- With the units that the cursor lags behind, the output reads as the first `j` units of `b`; the
first `i` units of `a` are dealt with. -/
structure Reaches (a b : Text) (i j : Nat) (r : Rebuild) : Prop where
  cursor_le : r.cursor ≤ i
  le_length : i ≤ a.length
  text_eq : r.output.toList ++ a.segment r.cursor (i - r.cursor) = b.take j

variable {a b : Text} {i j n : Nat} {r : Rebuild}

theorem reaches_start (a b : Text) : Reaches a b 0 0 start := by
  refine ⟨Nat.le_refl _, Nat.zero_le _, ?_⟩
  simp [start]

theorem toList_copyTo (a : Text) (i : Nat) (r : Rebuild) :
    (r.copyTo a.toArray i).output.toList = r.output.toList ++ a.segment r.cursor (i - r.cursor) := by
  simp [copyTo, Text.segment, List.extract_eq_take_drop]

theorem toList_write (text : Text) (r : Rebuild) :
    (r.write text).output.toList = r.output.toList ++ text := by
  simp [write]

/-- Units that both texts share are left for later. -/
theorem Reaches.keep (h : r.Reaches a b i j) (hn : i + n ≤ a.length)
    (heq : a.segment i n = b.segment j n) : r.Reaches a b (i + n) (j + n) := by
  have hle := h.cursor_le
  refine ⟨by omega, hn, ?_⟩
  have hsplit : i + n - r.cursor = (i - r.cursor) + n := by omega
  have hadd : r.cursor + (i - r.cursor) = i := by omega
  rw [hsplit, ← Text.segment_append_segment, hadd, ← List.append_assoc, h.text_eq, heq,
    Text.take_append_segment]

/-- A range behind the position dealt with is stepped over, and the cursor does not lag any more. -/
theorem Reaches.skip (h : r.Reaches a b i j) (hn : i + n ≤ a.length) :
    ∃ r', r.skip a.toArray i n = .ok r' ∧ r'.Reaches a b (i + n) j ∧ r'.cursor = i + n := by
  have hcursor : ¬ i < r.cursor := Nat.not_lt.mpr h.cursor_le
  refine ⟨⟨i + n, (r.copyTo a.toArray i).output⟩, ?_, ⟨Nat.le_refl _, hn, ?_⟩, rfl⟩
  · simp only [Rebuild.skip, checkRange, List.size_toArray, if_pos hn, if_neg hcursor]
    rfl
  · simp [toList_copyTo, h.text_eq]

/-- The output can be filled up to the position it is to reach. -/
theorem Reaches.fillTo (h : r.Reaches a b i j) (hj : j ≤ b.length) :
    ∃ r', r.fillTo a.toArray j = .ok r' ∧ r'.Reaches a b i j ∧ r'.cursor = i := by
  have hcursor := h.cursor_le
  have hle := h.le_length
  have hlen : r.output.size + (i - r.cursor) = j := by
    have hl := congrArg List.length h.text_eq
    rw [List.length_append, Text.length_segment (by omega), List.length_take] at hl
    simpa [Nat.min_eq_left hj] using hl
  have hneed : r.cursor + (j - r.output.size) = i := by omega
  have hbehind : ¬ j < r.output.size := by omega
  have hrange : r.cursor + (j - r.output.size) ≤ a.length := by omega
  refine ⟨r.copyTo a.toArray i, ?_, ⟨Nat.le_refl _, hle, ?_⟩, rfl⟩
  · simp only [Rebuild.fillTo, checkRange, List.size_toArray, if_neg hbehind, if_pos hrange]
    rw [hneed]
    rfl
  · have hcopied : (r.copyTo a.toArray i).cursor = i := rfl
    simp [toList_copyTo, hcopied, h.text_eq]

theorem Reaches.write (h : r.Reaches a b i j) (hcursor : r.cursor = i) (n : Nat) :
    (r.write (b.segment j n)).Reaches a b i (j + n) := by
  have htext := h.text_eq
  subst hcursor
  refine ⟨Nat.le_refl _, h.le_length, ?_⟩
  simp only [Nat.sub_self, Text.segment_zero_right, List.append_nil] at htext
  rw [toList_write, htext, Text.take_append_segment]
  simp [Rebuild.write]

theorem Reaches.finish (h : r.Reaches a b a.length b.length) : r.finish a.toArray = b := by
  have htext := h.text_eq
  rw [List.take_length] at htext
  rw [Rebuild.finish, List.size_toArray, toList_copyTo, htext]

end Rebuild

/-- A range of the previous text that goes away, with the number under which it is cut. -/
structure Removal where
  start : Nat
  length : Nat
  block : Option Nat

end Patch

/-- The range that an edit on the source side takes away. -/
def Edit.removal? {τ : Type} : Edit τ → Option Patch.Removal
  | .delete start length | .replace start length _ => some ⟨start, length, none⟩
  | .cut start length block => some ⟨start, length, some block⟩
  | .full _ | .insert .. | .paste .. => none

namespace Patch

def removals (patch : Patch) : List Removal := patch.filterMap Edit.removal?

theorem removals_cons (e : Edit Text) (patch : Patch) :
    removals (e :: patch) = e.removal?.toList ++ removals patch := by
  rw [removals, List.filterMap_cons]
  cases e.removal? <;> rfl

/-- The numbers and units of the cut ranges of a patch. -/
def cuts (a : Text) (patch : Patch) : Clipboard :=
  patch.filterMap fun
    | .cut start length block => some (block, a.segment start length)
    | _ => none

theorem cuts_eq_filterMap (a : Text) (patch : Patch) : cuts a patch =
    (removals patch).filterMap fun x => x.block.map fun block => (block, a.segment x.start x.length) := by
  rw [cuts, removals, List.filterMap_filterMap]
  congr 1
  funext e
  cases e <;> rfl

/-- Cut ranges inside the text under different numbers all come to the clipboard. -/
theorem addCuts_eq {a : Text} {clips : Clipboard} {patch : Patch}
    (hin : ∀ start length block, .cut start length block ∈ patch → start + length ≤ a.length)
    (hnodup : ((cuts a patch).map Prod.fst).Nodup)
    (hnew : ∀ c ∈ cuts a patch, clips.lookup c.1 = none) :
    addCuts a clips patch = .ok ((cuts a patch).reverse ++ clips) := by
  induction patch generalizing clips with
  | nil => rfl
  | cons e rest ih =>
    have hin' := fun s l id h => hin s l id (List.mem_cons_of_mem e h)
    cases e with
    | cut start length block =>
      have hcuts : cuts a (.cut start length block :: rest) =
          (block, a.segment start length) :: cuts a rest := rfl
      rw [hcuts] at hnodup hnew ⊢
      obtain ⟨hblock, hrest⟩ := List.nodup_cons.mp hnodup
      have hrange : start + length ≤ a.length := hin start length block (by simp)
      have hfree : clips.lookup block = none := hnew (block, a.segment start length) (by simp)
      simp only [addCuts, checkRange, if_pos hrange, hfree]
      refine (ih hin' hrest fun c hc => ?_).trans (by simp)
      have hne : c.1 ≠ block := fun heq =>
        hblock (List.mem_map.mpr ⟨c, hc, heq⟩)
      rw [List.lookup_cons, beq_false_of_ne hne]
      exact hnew c (by simp [hc])
    | full | insert | delete | replace | paste =>
      exact ih hin' hnodup hnew

theorem lookup_of_mem {clips : Clipboard} (hn : (clips.map Prod.fst).Nodup) {id : Nat} {t : Text}
    (h : (id, t) ∈ clips) : clips.lookup id = some t := by
  obtain ⟨before, after, rfl⟩ := List.append_of_mem h
  refine List.lookup_eq_some_iff.mpr ⟨before, after, rfl, ?_⟩
  intro c hc
  simp only [List.map_append, List.map_cons] at hn
  have hne := (List.nodup_append.mp hn).2.2 c.1 (List.mem_map_of_mem hc) id (by simp)
  simpa using Ne.symm hne

theorem lookup_eq_some {clips : Clipboard} (hn : (clips.map Prod.fst).Nodup) {id : Nat} {t : Text} :
    clips.lookup id = some t ↔ (id, t) ∈ clips := by
  refine ⟨fun h => ?_, lookup_of_mem hn⟩
  obtain ⟨before, after, rfl, -⟩ := List.lookup_eq_some_iff.mp h
  simp

theorem lookup_reverse {clips : Clipboard} (hn : (clips.map Prod.fst).Nodup) (id : Nat) :
    clips.reverse.lookup id = clips.lookup id := by
  have hn' : (clips.reverse.map Prod.fst).Nodup := by
    rw [List.map_reverse, List.nodup_reverse]
    exact hn
  refine Option.ext fun t => ?_
  rw [lookup_eq_some hn', lookup_eq_some hn, List.mem_reverse]

/-- A clipboard that is put together holds the cut ranges, and each number names one of them. -/
theorem addCuts_ok {a : Text} {clips clips' : Clipboard} {patch : Patch}
    (h : addCuts a clips patch = .ok clips') (hnodup : (clips.map Prod.fst).Nodup) :
    clips' = (cuts a patch).reverse ++ clips ∧ (clips'.map Prod.fst).Nodup := by
  induction patch generalizing clips with
  | nil =>
    obtain rfl := Except.ok.inj h
    exact ⟨rfl, hnodup⟩
  | cons e rest ih =>
    cases e with
    | cut start length block =>
      obtain ⟨u, -, hrest⟩ := bind_eq_ok.mp h
      dsimp only at hrest
      split at hrest
      · cases hrest
      next hfree =>
        have hnew : block ∉ clips.map Prod.fst := by
          intro hmem
          obtain ⟨clip, hclip, rfl⟩ := List.mem_map.mp hmem
          have hlookup : clips.lookup clip.1 = some clip.2 := lookup_of_mem hnodup hclip
          rw [hlookup] at hfree
          exact hfree rfl
        have hnodup' : (((block, a.segment start length) :: clips).map Prod.fst).Nodup :=
          List.nodup_cons.mpr ⟨hnew, hnodup⟩
        obtain ⟨heq, hafter⟩ := ih hrest hnodup'
        refine ⟨heq.trans ?_, hafter⟩
        have hcuts : cuts a (.cut start length block :: rest) =
            (block, a.segment start length) :: cuts a rest := rfl
        rw [hcuts, List.reverse_cons, List.append_assoc]
        rfl
    | full | insert | delete | replace | paste => exact ih h hnodup

end Patch
end EditHistory
