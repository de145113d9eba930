import EditHistory.Proofs.Patch.Rebuild

/-! Deletions and insertions side by side. Where units of the previous text are copied between the two,
they stand at different places of the text; a run in which that is always so is spaced. -/
namespace EditHistory

/-- Of two edits one deletes and the other inserts. -/
def Edit.Opposes {τ : Type} : Edit τ → Edit τ → Prop
  | .delete .., .insert .. | .insert .., .delete .. => True
  | _, _ => False

namespace Patch
namespace Rebuild

variable {a b : Text} {clips : Clipboard} {i j n : Nat} {r r' : Rebuild} {e : Edit Text} {es : Patch}

/-- An edit goes through, and copies units of the previous text before it puts in a text of its own. -/
def CopiesBefore (a : Text) (clips : Clipboard) (r : Rebuild) (e : Edit Text) : Prop :=
  ∃ r' copied, r.step a.toArray clips e = .ok r' ∧ copied ≠ [] ∧
    copied = a.segment r.cursor copied.length ∧
    r'.output.toList = r.output.toList ++ copied ++ e.text?.getD []

/-- The units that the cursor lags behind, as a text of their own. -/
theorem Reaches.exists_lag (h : r.Reaches a b i j) (hlag : r.cursor < i) :
    ∃ copied, copied ≠ [] ∧ copied = a.segment r.cursor copied.length ∧
      (r.copyTo a.toArray i).output.toList = r.output.toList ++ copied := by
  have hle := h.le_length
  have hlength : (a.segment r.cursor (i - r.cursor)).length = i - r.cursor :=
    Text.length_segment (by omega)
  refine ⟨a.segment r.cursor (i - r.cursor), ?_, by rw [hlength], toList_copyTo a i r⟩
  rw [← List.length_pos_iff, hlength]
  omega

theorem Reaches.copiesBefore_delete (h : r.Reaches a b i j) (hlag : r.cursor < i)
    (hn : i + n ≤ a.length) : r.CopiesBefore a clips (.delete i n) := by
  obtain ⟨r', hskip, -, -⟩ := h.skip hn
  obtain ⟨-, -, rfl⟩ := skip_ok hskip
  obtain ⟨copied, hne, hcopied, houtput⟩ := h.exists_lag hlag
  exact ⟨_, copied, hskip, hne, hcopied, houtput.trans (List.append_nil _).symm⟩

theorem Reaches.copiesBefore_insert (h : r.Reaches a b i j) (hlag : r.cursor < i) (hj : j ≤ b.length)
    (text : Text) : r.CopiesBefore a clips (.insert j text) := by
  obtain ⟨r', hfill, -, hcursor⟩ := h.fillTo hj
  obtain ⟨-, -, rfl⟩ := fillTo_ok hfill
  obtain ⟨copied, hne, hcopied, houtput⟩ := h.exists_lag hlag
  have hneed : r.cursor + (j - r.output.size) = i := hcursor
  rw [hneed] at hfill
  refine ⟨(r.copyTo a.toArray i).write text, copied, ?_, hne, hcopied, ?_⟩
  · rw [step, hfill]
    rfl
  · rw [toList_write, houtput]
    rfl

/-- A run in which an edit that opposes the one before it copies units of the previous text first. -/
inductive SpacedRun (a : Text) (clips : Clipboard) :
    Option (Edit Text) → Rebuild → Patch → Rebuild → Prop where
  | nil {before : Option (Edit Text)} {r : Rebuild} : SpacedRun a clips before r [] r
  | cons {before : Option (Edit Text)} {r r' r'' : Rebuild} {e : Edit Text} {es : Patch}
    (hspaced : ∀ x ∈ before, x.Opposes e → r.CopiesBefore a clips e)
    (hstep : r.step a.toArray clips e = .ok r') (hrest : SpacedRun a clips (some e) r' es r'') :
    SpacedRun a clips before r (e :: es) r''

theorem SpacedRun.foldlM_eq {before : Option (Edit Text)} (h : SpacedRun a clips before r es r') :
    es.foldlM (step a.toArray clips) r = .ok r' := by
  induction h with
  | nil => rfl
  | cons _ hstep _ ih =>
    rw [List.foldlM_cons, hstep]
    exact ih

/-- A spaced run up to an edit that opposes the one before it. -/
theorem SpacedRun.exists_copiesBefore {before : Option (Edit Text)} {earlier later : Patch}
    {x y : Edit Text} (h : SpacedRun a clips before r (earlier ++ x :: y :: later) r')
    (hopposes : x.Opposes y) :
    ∃ middle, (earlier ++ [x]).foldlM (step a.toArray clips) r = .ok middle ∧
      middle.CopiesBefore a clips y := by
  induction earlier generalizing before r with
  | nil =>
    cases h with
    | cons _ hstep hrest =>
      cases hrest with
      | cons hspaced _ _ =>
        refine ⟨_, ?_, hspaced x rfl hopposes⟩
        rw [List.nil_append, List.foldlM_cons, hstep]
        rfl
  | cons e earlier ih =>
    cases h with
    | cons _ hstep hrest =>
      obtain ⟨middle, hfold, hcopies⟩ := ih hrest
      refine ⟨middle, ?_, hcopies⟩
      rw [List.cons_append, List.foldlM_cons, hstep]
      exact hfold

end Rebuild
end Patch
end EditHistory
