import EditHistory.Proofs.Patch.Rebuild

/-! What a patch means. Whatever edits it is made of, once it applies, its source ranges lie in the
previous text one behind the other, the texts it puts in lie in the result one behind the other, and
without the ones the previous text reads as the result without the others. -/
namespace EditHistory
namespace Patch

/-- A text that is put in, and where. -/
structure Addition where
  start : Nat
  text : Text

def Addition.length (x : Addition) : Nat := x.text.length

def Addition.span (x : Addition) : Text.Span := ⟨x.start, x.length⟩

def Removal.span (x : Removal) : Text.Span := ⟨x.start, x.length⟩

end Patch

/-- The text that an edit puts in. A replacement names no target position: its text stands where its
range did, shifted by what the edits before it have added and removed. -/
def Edit.addition? (units : Nat → Option Text) (added removed : Nat) :
    Edit Text → Option Patch.Addition
  | .insert start text => some ⟨start, text⟩
  | .replace start _ text => some ⟨start + added - removed, text⟩
  | .paste start block => (units block).map fun text => ⟨start, text⟩
  | .full _ | .delete .. | .cut .. => none

namespace Patch

/-- The texts that edits put in, behind edits that have added and removed some units. -/
def additionsFrom (units : Nat → Option Text) : Nat → Nat → Patch → List Addition
  | _, _, [] => []
  | added, removed, e :: rest =>
    let here := (e.addition? units added removed).toList
    here ++ additionsFrom units (added + sumOf Addition.length here)
      (removed + sumOf Removal.length e.removal?.toList) rest

/-- The texts that a patch puts in, those of pasted blocks taken from the previous text. -/
def additions (previous : Text) (patch : Patch) : List Addition :=
  additionsFrom (fun block => (cuts previous patch).lookup block) 0 0 patch

/-- A previous text and a result are as the edits of a patch say. -/
structure Describes (patch : Patch) (previous result : Text) : Prop where
  removals_within : ∀ x ∈ removals patch, x.start + x.length ≤ previous.length
  removals_ascending : (removals patch).Pairwise fun x y => x.start + x.length ≤ y.start
  reads_inserted : ∀ start text, .insert start text ∈ patch → result.Reads start text
  /-- There is a cut for every paste, and what is pasted are the units of its range. -/
  reads_pasted : ∀ start block, .paste start block ∈ patch →
    (∃ source length, .cut source length block ∈ patch) ∧
      ∀ source length, .cut source length block ∈ patch →
        result.Reads start (previous.segment source length)
  reads_added : ∀ x ∈ additions previous patch, result.Reads x.start x.text
  additions_ascending :
    (additions previous patch).Pairwise fun x y => x.start + x.text.length ≤ y.start
  without_eq : result.without ((additions previous patch).map Addition.span) =
    previous.without ((removals patch).map Removal.span)
  length_eq : result.length + sumOf Removal.length (removals patch) =
    previous.length + sumOf Addition.length (additions previous patch)

/-- A paste finds its block on the clipboard. -/
theorem Rebuild.paste_ok {previous : Array UInt16} {clips : Clipboard} {r r' : Rebuild}
    {start block : Nat} (h : r.step previous clips (.paste start block) = .ok r') :
    ∃ text filled, clips.lookup block = some text ∧ r.fillTo previous start = .ok filled ∧
      r' = filled.write text := by
  rw [step] at h
  split at h
  · cases h
  next text htext =>
    obtain ⟨filled, hfill, hend⟩ := bind_eq_ok.mp h
    exact ⟨text, filled, htext, hfill, (Except.ok.inj hend).symm⟩

/-- The previous text up to the cursor without the removed ranges and the output without the added
texts are the same. -/
structure Accounts (a : Text) (removed : List Removal) (added : List Addition) (kept : Text)
    (r : Rebuild) : Prop where
  cursor_le : r.cursor ≤ a.length
  source : Text.Leaves (a.take r.cursor) (removed.map Removal.span) kept
  target : Text.Leaves r.output.toList (added.map Addition.span) kept
  reads : ∀ x ∈ added, Text.Reads r.output.toList x.start x.text

namespace Accounts

variable {a kept : Text} {removed : List Removal} {added : List Addition} {r r' : Rebuild}
  {clips : Clipboard} {i n : Nat}

theorem start (a : Text) : Accounts a [] [] [] .start :=
  ⟨Nat.zero_le _, Text.leaves_nil, Text.leaves_nil, nofun⟩

theorem copyTo (h : Accounts a removed added kept r) (hi : r.cursor ≤ i) (hle : i ≤ a.length) :
    Accounts a removed added (kept ++ a.segment r.cursor (i - r.cursor)) (r.copyTo a.toArray i) := by
  have htake : a.take i = a.take r.cursor ++ a.segment r.cursor (i - r.cursor) := by
    rw [Text.take_append_segment, Nat.add_sub_cancel' hi]
  refine ⟨hle, ?_, ?_, fun x hx => ?_⟩
  · show Text.Leaves (a.take i) _ _
    rw [htake]
    exact h.source.append_kept _
  · rw [Rebuild.toList_copyTo]
    exact h.target.append_kept _
  · rw [Rebuild.toList_copyTo]
    exact (h.reads x hx).append _

/-- A range right behind the cursor is left out. -/
theorem leap (h : Accounts a removed added kept r) (hn : r.cursor + n ≤ a.length)
    (block : Option Nat) :
    Accounts a (removed ++ [⟨r.cursor, n, block⟩]) added kept ⟨r.cursor + n, r.output⟩ := by
  refine ⟨hn, ?_, h.target, h.reads⟩
  have hspan := h.source.append_span (a.segment r.cursor n)
  rw [Text.take_append_segment, List.length_take, Nat.min_eq_left h.cursor_le,
    Text.length_segment hn] at hspan
  rw [List.map_append]
  exact hspan

theorem write (h : Accounts a removed added kept r) (t : Text) :
    Accounts a removed (added ++ [⟨r.output.size, t⟩]) kept (r.write t) := by
  refine ⟨h.cursor_le, h.source, ?_, ?_⟩
  · rw [Rebuild.toList_write, List.map_append]
    exact h.target.append_span t
  · rw [Rebuild.toList_write]
    intro x hx
    rcases List.mem_append.mp hx with hx | hx
    · exact (h.reads x hx).append t
    · obtain rfl := List.mem_singleton.mp hx
      exact Text.reads_end _ t

/-- The output and the cursor differ by what was added and removed. -/
theorem size_eq (h : Accounts a removed added kept r) :
    r.output.size + sumOf Removal.length removed = r.cursor + sumOf Addition.length added := by
  have hsource : r.cursor = kept.length + sumOf Removal.length removed := by
    have hlength := h.source.length_eq
    rw [List.length_take, Nat.min_eq_left h.cursor_le, sumOf_map] at hlength
    exact hlength
  have htarget : r.output.size = kept.length + sumOf Addition.length added := by
    have hlength := h.target.length_eq
    rw [Array.length_toList, sumOf_map] at hlength
    exact hlength
  omega

theorem skip (h : Accounts a removed added kept r) {start : Nat}
    (hskip : r.skip a.toArray start n = .ok r') (block : Option Nat) :
    ∃ kept', Accounts a (removed ++ [⟨start, n, block⟩]) added kept' r' := by
  obtain ⟨hrange, hcursor, rfl⟩ := Rebuild.skip_ok hskip
  have hstart : start ≤ a.length := Nat.le_trans (Nat.le_add_right _ _) hrange
  exact ⟨_, (h.copyTo hcursor hstart).leap hrange block⟩

/-- A text behind a filled up output stands at the position that was asked for. -/
theorem fill (h : Accounts a removed added kept r) {target : Nat} {filled : Rebuild}
    (hfill : r.fillTo a.toArray target = .ok filled) (text : Text) :
    ∃ kept', Accounts a removed (added ++ [⟨target, text⟩]) kept' (filled.write text) := by
  obtain ⟨houtput, hrange, rfl⟩ := Rebuild.fillTo_ok hfill
  have hcopied := h.copyTo (Nat.le_add_right _ _) hrange
  have hsize : (r.copyTo a.toArray (r.cursor + (target - r.output.size))).output.size = target := by
    have hcursor : (r.copyTo a.toArray (r.cursor + (target - r.output.size))).cursor =
        r.cursor + (target - r.output.size) := rfl
    have hbefore := h.size_eq
    have hafter := hcopied.size_eq
    omega
  have hwritten := hcopied.write text
  rw [hsize] at hwritten
  exact ⟨_, hwritten⟩

/-- A text behind a range that was stepped over stands where the range did, as much further on or back as
the edits before have added or removed. -/
theorem replace (h : Accounts a removed added kept r) {start : Nat} {skipped : Rebuild}
    (hskip : r.skip a.toArray start n = .ok skipped) (text : Text) :
    ∃ kept', Accounts a (removed ++ [⟨start, n, none⟩])
      (added ++ [⟨start + sumOf Addition.length added - sumOf Removal.length removed, text⟩]) kept'
      (skipped.write text) := by
  obtain ⟨kept', hkept⟩ := h.skip hskip none
  have hsize : skipped.output.size =
      start + sumOf Addition.length added - sumOf Removal.length removed := by
    have hcursor : skipped.cursor = start + n := by
      obtain ⟨-, -, rfl⟩ := Rebuild.skip_ok hskip
      rfl
    have hafter := hkept.size_eq
    simp only [sumOf_append, sumOf_cons, sumOf_nil] at hafter
    omega
  have hwritten := hkept.write text
  rw [hsize] at hwritten
  exact ⟨kept', hwritten⟩

/-- Every edit removes its range and adds its text. -/
theorem step (h : Accounts a removed added kept r) {e : Edit Text} (he : ¬ e.isFull)
    (hstep : r.step a.toArray clips e = .ok r') :
    ∃ kept', Accounts a (removed ++ e.removal?.toList)
      (added ++ (e.addition? (fun block => clips.lookup block) (sumOf Addition.length added)
        (sumOf Removal.length removed)).toList) kept' r' := by
  cases e with
  | full text => exact absurd rfl he
  | insert start text =>
    obtain ⟨filled, hfill, hend⟩ := bind_eq_ok.mp hstep
    obtain rfl := Except.ok.inj hend
    simp only [Edit.removal?, Option.toList_none, List.append_nil]
    exact h.fill hfill text
  | delete start length =>
    simp only [Edit.addition?, Option.toList_none, List.append_nil]
    exact h.skip hstep none
  | replace start length text =>
    obtain ⟨skipped, hskip, hend⟩ := bind_eq_ok.mp hstep
    obtain rfl := Except.ok.inj hend
    exact h.replace hskip text
  | cut start length block =>
    simp only [Edit.addition?, Option.toList_none, List.append_nil]
    exact h.skip hstep (some block)
  | paste start block =>
    obtain ⟨text, filled, htext, hfill, rfl⟩ := Rebuild.paste_ok hstep
    simp only [Edit.removal?, Edit.addition?, htext, Option.toList_none, List.append_nil]
    exact h.fill hfill text

theorem run (h : Accounts a removed added kept r) {patch : Patch} (hparts : ∀ e ∈ patch, ¬ e.isFull)
    (hrun : patch.foldlM (Rebuild.step a.toArray clips) r = .ok r') :
    ∃ kept', Accounts a (removed ++ removals patch)
      (added ++ additionsFrom (fun block => clips.lookup block) (sumOf Addition.length added)
        (sumOf Removal.length removed) patch) kept' r' := by
  induction patch generalizing removed added kept r with
  | nil =>
    obtain rfl := Except.ok.inj hrun
    refine ⟨kept, ?_⟩
    simp only [removals, additionsFrom, List.filterMap_nil, List.append_nil]
    exact h
  | cons e rest ih =>
    obtain ⟨he, hrest⟩ := List.forall_mem_cons.mp hparts
    rw [List.foldlM_cons] at hrun
    obtain ⟨middle, hstep, hrun⟩ := bind_eq_ok.mp hrun
    obtain ⟨kept', hmiddle⟩ := h.step he hstep
    obtain ⟨kept'', hend⟩ := ih hmiddle hrest hrun
    refine ⟨kept'', ?_⟩
    rw [sumOf_append, sumOf_append, List.append_assoc, List.append_assoc, ← removals_cons] at hend
    exact hend

end Accounts

/-- An edit whose text and place do not depend on what was before it. -/
theorem mem_additionsFrom {units : Nat → Option Text} {patch : Patch} {e : Edit Text} {x : Addition}
    (he : e ∈ patch) (hx : ∀ added removed, e.addition? units added removed = some x)
    (added removed : Nat) : x ∈ additionsFrom units added removed patch := by
  induction patch generalizing added removed with
  | nil => cases he
  | cons e' rest ih =>
    rw [additionsFrom, List.mem_append]
    rcases List.mem_cons.mp he with rfl | he
    · left
      rw [hx, Option.toList_some]
      exact List.mem_singleton_self x
    · exact .inr (ih he _ _)

theorem mem_cuts {a t : Text} {patch : Patch} {block : Nat} : (block, t) ∈ cuts a patch ↔
    ∃ start length, .cut start length block ∈ patch ∧ a.segment start length = t := by
  rw [cuts, List.mem_filterMap]
  constructor
  · rintro ⟨e, he, heq⟩
    cases e with
    | cut start length block' =>
      obtain ⟨rfl, rfl⟩ := Prod.mk.inj (Option.some.inj heq)
      exact ⟨start, length, he, rfl⟩
    | full | insert | delete | replace | paste => cases heq
  · rintro ⟨start, length, he, rfl⟩
    exact ⟨_, he, rfl⟩

section Apply

variable {patch : Patch} {previous result : Text}

/-- What a patch that applies finds on the clipboard, and the rebuild that it runs. -/
theorem apply_ok (h : patch.apply previous = .ok result) :
    ((cuts previous patch).map Prod.fst).Nodup ∧ ∃ r,
      patch.foldlM (Rebuild.step previous.toArray (cuts previous patch).reverse) .start = .ok r ∧
        r.finish previous.toArray = result := by
  obtain ⟨clips, hclips, hrest⟩ := bind_eq_ok.mp h
  obtain ⟨r, hrun, hend⟩ := bind_eq_ok.mp hrest
  obtain ⟨rfl, hnodup⟩ := addCuts_ok hclips List.nodup_nil
  rw [List.append_nil] at hrun hnodup
  rw [List.map_reverse, List.nodup_reverse] at hnodup
  exact ⟨hnodup, r, hrun, Except.ok.inj hend⟩

theorem accounts_of_apply (hparts : ∀ e ∈ patch, ¬ e.isFull) (h : patch.apply previous = .ok result) :
    ∃ kept, Accounts previous (removals patch) (additions previous patch) kept
      ⟨previous.length, result.toArray⟩ := by
  obtain ⟨hnodup, r, hrun, rfl⟩ := apply_ok h
  obtain ⟨kept, hend⟩ := (Accounts.start previous).run hparts hrun
  have hlookup : (fun block => (cuts previous patch).reverse.lookup block) =
      fun block => (cuts previous patch).lookup block :=
    funext fun block => lookup_reverse hnodup block
  rw [hlookup] at hend
  exact ⟨_, hend.copyTo hend.cursor_le (Nat.le_refl _)⟩

theorem reads_inserted_of_apply (hparts : ∀ e ∈ patch, ¬ e.isFull)
    (h : patch.apply previous = .ok result) {start : Nat} {text : Text}
    (he : .insert start text ∈ patch) : result.Reads start text := by
  obtain ⟨kept, haccounts⟩ := accounts_of_apply hparts h
  exact haccounts.reads ⟨start, text⟩ (mem_additionsFrom he (fun _ _ => rfl) 0 0)

theorem reads_pasted_of_apply (hparts : ∀ e ∈ patch, ¬ e.isFull)
    (h : patch.apply previous = .ok result) {start block : Nat} (he : .paste start block ∈ patch) :
    (∃ source length, .cut source length block ∈ patch) ∧
      ∀ source length, .cut source length block ∈ patch →
        result.Reads start (previous.segment source length) := by
  obtain ⟨hnodup, r, hrun, -⟩ := apply_ok h
  obtain ⟨kept, haccounts⟩ := accounts_of_apply hparts h
  constructor
  · obtain ⟨r₁, r₂, hstep⟩ := step_ok_of_foldlM hrun he
    obtain ⟨text, -, htext, -, -⟩ := Rebuild.paste_ok hstep
    rw [lookup_reverse hnodup, lookup_eq_some hnodup] at htext
    obtain ⟨source, length, hcut, -⟩ := mem_cuts.mp htext
    exact ⟨source, length, hcut⟩
  · intro source length hcut
    have hunits := (lookup_eq_some hnodup).mpr (mem_cuts.mpr ⟨source, length, hcut, rfl⟩)
    refine haccounts.reads ⟨start, previous.segment source length⟩
      (mem_additionsFrom he (fun _ _ => ?_) 0 0)
    rw [Edit.addition?, hunits]
    rfl

/-- A patch of parts that applies describes what it is applied to and what comes out. -/
theorem describes_of_apply (hparts : ∀ e ∈ patch, ¬ e.isFull)
    (h : patch.apply previous = .ok result) : Describes patch previous result := by
  obtain ⟨kept, haccounts⟩ := accounts_of_apply hparts h
  have hsource := haccounts.source
  have htarget := haccounts.target
  rw [List.take_length] at hsource
  exact {
    removals_within := fun x hx => hsource.stop_le x.span (List.mem_map_of_mem hx)
    removals_ascending := List.pairwise_map.mp hsource.ascending
    reads_inserted := fun _ _ => reads_inserted_of_apply hparts h
    reads_pasted := fun _ _ => reads_pasted_of_apply hparts h
    reads_added := haccounts.reads
    additions_ascending := List.pairwise_map.mp htarget.ascending
    without_eq := htarget.without_eq.trans hsource.without_eq.symm
    length_eq := haccounts.size_eq }

/-- A block that is pasted twice before it is cut, an empty range, a replacement. -/
theorem describes_block_pasted_twice :
    (∀ e ∈ ([.paste 0 1, .delete 0 0, .replace 1 2 [88], .paste 5 1, .cut 4 2 1, .insert 7 [33]] : Patch),
      ¬ e.isFull) ∧
    apply [.paste 0 1, .delete 0 0, .replace 1 2 [88], .paste 5 1, .cut 4 2 1, .insert 7 [33]]
      [97, 98, 99, 100, 101, 102] = .ok [101, 102, 97, 88, 100, 101, 102, 33] ∧
    Describes [.paste 0 1, .delete 0 0, .replace 1 2 [88], .paste 5 1, .cut 4 2 1, .insert 7 [33]]
      [97, 98, 99, 100, 101, 102] [101, 102, 97, 88, 100, 101, 102, 33] :=
  ⟨by decide, rfl, describes_of_apply (by decide) rfl⟩

end Apply

end Patch
end EditHistory
