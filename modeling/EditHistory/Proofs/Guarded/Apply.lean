import EditHistory.Proofs.Guarded.Basic
import EditHistory.Proofs.Patch.Rebuild

/-! Applying a patch with guards. The numbers in the patch may be any; the cursor has to stay within the
previous text, and every piece that is copied has to be a slice of it. -/
namespace EditHistory

namespace Guarded

open Patch

/-- The sum, if a word holds it. -/
def checkedAdd (m n : Nat) : Option Nat := if m + n < Decimal.wordLimit then some (m + n) else none

/-- The end of a range that is inside a text. -/
def checkedRange (start length textLength : Nat) : Guarded ApplyError Nat :=
  match checkedAdd start length with
  | some stop => if stop ≤ textLength then pure stop else throw (.outOfBounds start length textLength)
  | none => throw (.outOfBounds start length textLength)

def addCuts (previous : Array UInt16) : Clipboard → Patch → Guarded ApplyError Clipboard
  | clips, [] => return clips
  | clips, .cut start length block :: rest => do
    let stop ← checkedRange start length previous.size
    let units ← slice previous start stop
    if (clips.lookup block).isSome then throw (.duplicateBlock block)
    addCuts previous ((block, units.toList) :: clips) rest
  | clips, _ :: rest => addCuts previous clips rest

def moveCursor (previous : Array UInt16) (cursor : Nat) (output : Array UInt16) :
    Guarded ApplyError Rebuild := do
  ensure (cursor ≤ previous.size)
  return ⟨cursor, output⟩

def skipRange (previous : Array UInt16) (start length : Nat) (r : Rebuild) :
    Guarded ApplyError Rebuild := do
  let stop ← checkedRange start length previous.size
  if start < r.cursor then throw (.sourceBehindCursor start r.cursor)
  let copied ← slice previous r.cursor start
  moveCursor previous stop (r.output ++ copied)

def fillTo (previous : Array UInt16) (target : Nat) (r : Rebuild) : Guarded ApplyError Rebuild := do
  if target < r.output.size then throw (.targetBehindOutput target r.output.size)
  let need ← sub target r.output.size
  let stop ← checkedRange r.cursor need previous.size
  let copied ← slice previous r.cursor stop
  moveCursor previous stop (r.output ++ copied)

def step (previous : Array UInt16) (clips : Clipboard) (r : Rebuild) :
    Edit Text → Guarded ApplyError Rebuild
  | .full text => moveCursor previous previous.size text.toArray
  | .insert start text => return (← fillTo previous start r).write text
  | .delete start length | .cut start length _ => skipRange previous start length r
  | .replace start length text => return (← skipRange previous start length r).write text
  | .paste start block =>
    match clips.lookup block with
    | none => throw (.unknownBlock block)
    | some text => return (← fillTo previous start r).write text

def apply (patch : Patch) (previous : Text) : Guarded ApplyError Text := do
  let units := previous.toArray
  let clips ← addCuts units [] patch
  let r ← patch.foldlM (step units clips) Rebuild.start
  let rest ← slice units r.cursor units.size
  return (r.output ++ rest).toList

end Guarded

namespace Patch

variable {previous : Array UInt16} {clips : Clipboard} {r r' : Rebuild}

theorem cursor_skip {start length : Nat} (h : r.skip previous start length = .ok r') :
    r'.cursor ≤ previous.size := by
  obtain ⟨hrange, -, rfl⟩ := Rebuild.skip_ok h
  exact hrange

theorem cursor_fillTo {target : Nat} (h : r.fillTo previous target = .ok r') :
    r'.cursor ≤ previous.size := by
  obtain ⟨-, hrange, rfl⟩ := Rebuild.fillTo_ok h
  exact hrange

/-- Whatever edit comes next, the cursor stays within the previous text. -/
theorem cursor_step {e : Edit Text} (h : Rebuild.step previous clips r e = .ok r') :
    r'.cursor ≤ previous.size := by
  cases e with
  | full text =>
    obtain rfl := Except.ok.inj h
    exact Nat.le_refl _
  | insert start text =>
    obtain ⟨filled, hfill, hend⟩ := bind_eq_ok.mp h
    obtain rfl := Except.ok.inj hend
    show filled.cursor ≤ _
    exact cursor_fillTo hfill
  | delete start length => exact cursor_skip h
  | replace start length text =>
    obtain ⟨skipped, hskip, hend⟩ := bind_eq_ok.mp h
    obtain rfl := Except.ok.inj hend
    show skipped.cursor ≤ _
    exact cursor_skip hskip
  | cut start length block => exact cursor_skip h
  | paste start block =>
    rw [Rebuild.step] at h
    split at h
    · cases h
    · obtain ⟨filled, hfill, hend⟩ := bind_eq_ok.mp h
      obtain rfl := Except.ok.inj hend
      show filled.cursor ≤ _
      exact cursor_fillTo hfill

theorem cursor_foldlM {patch : Patch} (h : patch.foldlM (Rebuild.step previous clips) .start = .ok r) :
    r.cursor ≤ previous.size :=
  foldlM_invariant (P := fun r => r.cursor ≤ previous.size) (fun _ => cursor_step) (Nat.zero_le _) h

end Patch

namespace Guarded

open Patch

variable {previous : Array UInt16} {clips : Clipboard} {r : Rebuild}

/-- Behind a range that was checked it goes on with the end of the range. A sum that no word holds is
past every text. -/
theorem checkedRange_bind {α : Type} {start length textLength : Nat}
    (hlength : textLength < Decimal.wordLimit) {next : Nat → Guarded ApplyError α}
    {result : Except ApplyError α}
    (h : start + length ≤ textLength → next (start + length) = of result) :
    (checkedRange start length textLength >>= next) =
      of (checkRange start length textLength >>= fun _ => result) := by
  rw [checkedRange, checkedAdd, checkRange]
  by_cases hrange : start + length ≤ textLength
  · rw [if_pos (Nat.lt_of_le_of_lt hrange hlength), if_pos hrange]
    simp only [if_pos hrange]
    exact h hrange
  · by_cases hword : start + length < Decimal.wordLimit
    · simp only [if_pos hword, if_neg hrange]
      rfl
    · simp only [if_neg hword, if_neg hrange]
      rfl

theorem addCuts_eq (hsize : previous.size < Decimal.wordLimit) (clips : Clipboard) (patch : Patch) :
    addCuts previous clips patch = of (Patch.addCuts previous.toList clips patch) := by
  fun_induction Patch.addCuts previous.toList clips patch with
  | case1 clips => rfl
  | case2 clips start length block rest ih =>
    rw [addCuts, Array.length_toList]
    refine checkedRange_bind hsize fun hrange => ?_
    have hunits : (previous.extract start (start + length)).toList =
        Text.segment previous.toList start length := by
      simp [Text.segment, List.extract_eq_take_drop]
    rw [slice_eq (Nat.le_add_right _ _) hrange, pure_bind, hunits, ih]
    cases (clips.lookup block).isSome <;> rfl
  | case3 clips e rest hother ih =>
    rw [addCuts.eq_3 _ _ _ _ hother]
    exact ih

theorem skipRange_eq (hsize : previous.size < Decimal.wordLimit) (start length : Nat) (r : Rebuild) :
    skipRange previous start length r = of (r.skip previous start length) := by
  rw [skipRange, Rebuild.skip]
  refine checkedRange_bind hsize fun hrange => ?_
  by_cases hbehind : start < r.cursor
  · rw [if_pos hbehind, if_pos hbehind]
    rfl
  · rw [if_neg hbehind, if_neg hbehind, slice_eq (Nat.le_of_not_lt hbehind) (by omega), pure_bind,
      moveCursor, ensure_eq hrange, pure_bind]
    rfl

theorem fillTo_eq (hsize : previous.size < Decimal.wordLimit) (target : Nat) (r : Rebuild) :
    fillTo previous target r = of (r.fillTo previous target) := by
  rw [fillTo, Rebuild.fillTo]
  by_cases hbehind : target < r.output.size
  · rw [if_pos hbehind, if_pos hbehind]
    rfl
  · rw [if_neg hbehind, if_neg hbehind, sub_eq (Nat.le_of_not_lt hbehind), pure_bind]
    refine checkedRange_bind hsize fun hrange => ?_
    rw [slice_eq (Nat.le_add_right _ _) hrange, pure_bind, moveCursor, ensure_eq hrange, pure_bind]
    rfl

theorem step_eq (hsize : previous.size < Decimal.wordLimit) (r : Rebuild) (e : Edit Text) :
    step previous clips r e = of (Rebuild.step previous clips r e) := by
  cases e with
  | full text =>
    rw [step, moveCursor, ensure_eq (Nat.le_refl _), pure_bind]
    rfl
  | insert start text =>
    rw [step, fillTo_eq hsize, Rebuild.step, ← of_bind]
    rfl
  | delete start length => exact skipRange_eq hsize start length r
  | replace start length text =>
    rw [step, skipRange_eq hsize, Rebuild.step, ← of_bind]
    rfl
  | cut start length block => exact skipRange_eq hsize start length r
  | paste start block =>
    rw [step, Rebuild.step]
    cases clips.lookup block with
    | none => rfl
    | some text =>
      show (fillTo previous start r >>= _) = of (r.fillTo previous start >>= _)
      rw [fillTo_eq hsize, ← of_bind]
      rfl

theorem foldlM_step_eq (hsize : previous.size < Decimal.wordLimit) (patch : Patch) (r : Rebuild) :
    patch.foldlM (step previous clips) r = of (patch.foldlM (Rebuild.step previous clips) r) := by
  induction patch generalizing r with
  | nil => rfl
  | cons e patch ih =>
    rw [List.foldlM_cons, List.foldlM_cons, step_eq hsize, ← of_bind]
    exact congrArg _ (funext ih)

theorem apply_eq (patch : Patch) {previous : Text} (hprevious : previous.length < 1 <<< 61) :
    apply patch previous = of (patch.apply previous) := by
  have hsize : previous.toArray.size < Decimal.wordLimit := by
    rw [List.size_toArray, Decimal.wordLimit]
    omega
  rw [apply, addCuts_eq hsize, Patch.apply, ← of_bind]
  refine congrArg _ (funext fun clips => ?_)
  show (patch.foldlM (step previous.toArray clips) Rebuild.start >>= _) =
    of (patch.foldlM (Rebuild.step previous.toArray clips) Rebuild.start >>= _)
  rw [foldlM_step_eq hsize]
  cases hfold : patch.foldlM (Rebuild.step previous.toArray clips) Rebuild.start with
  | error e => rfl
  | ok r =>
    show (slice previous.toArray r.cursor previous.toArray.size >>= _) = _
    rw [slice_eq (cursor_foldlM hfold) (Nat.le_refl _), pure_bind]
    rfl

end Guarded
end EditHistory
