import EditHistory.Proofs.Wire.Reading

/-! Bodies that no encoder wrote. At the widths that the fields need, which may be narrower than those of
the header, each edit ends no later, so what was read can be written again in no more bytes. -/
namespace EditHistory
namespace Body

variable {charset : Charset} {w w' : Widths}

/-! ## Narrower widths -/

theorem length_fieldBits_mono (h : w'.Covered w) (fields : List (Field × Nat)) :
    (Edit.fieldBits w' fields).length ≤ (Edit.fieldBits w fields).length := by
  induction fields with
  | nil => exact Nat.le_refl _
  | cons f fields ih =>
    rw [Edit.length_fieldBits_cons, Edit.length_fieldBits_cons]
    exact Nat.add_le_add (h f.1) ih

/-- At narrower widths an edit that starts no later ends no later. -/
theorem length_bitsAt_mono (h : w'.Covered w) {position position' : Nat}
    (hposition : position' ≤ position) (e : Edit Bytes) :
    position' + (e.bitsAt w' position').length ≤ position + (e.bitsAt w position).length := by
  have hcoded : (e.coded w').length ≤ (e.coded w).length := by
    have hfields := length_fieldBits_mono h e.fields
    simp only [Edit.coded, List.length_append, Bits.length_ofNat]
    omega
  rw [Edit.bitsAt, Edit.bitsAt, List.length_append, List.length_append, Edit.ending, Edit.ending]
  cases e.text? with
  | some t => dsimp only; omega
  | none =>
    -- both ends are byte boundaries
    simp only [Bits.padding, List.length_replicate]
    omega

theorem length_bitsFrom_mono (h : w'.Covered w) {position position' : Nat}
    (hposition : position' ≤ position) (es : List (Edit Bytes)) :
    position' + (bitsFrom w' position' es).length ≤ position + (bitsFrom w position es).length := by
  induction es generalizing position position' with
  | nil =>
    simp only [bitsFrom, Bits.padding, List.length_replicate]
    omega
  | cons e es ih =>
    have hrest := ih (length_bitsAt_mono h hposition e)
    simp only [bitsFrom, List.length_append]
    omega

/-! ## Writing again -/

/-- No number is too large that fits into a width of a header. -/
theorem le_maxFieldValue_of_fits (hw : w.Narrow) {e : Edit Bytes} (h : e.Fits w) :
    ∀ f ∈ e.fields, f.2 ≤ maxFieldValue := by
  intro f hf
  have hle : 1 <<< w.get f.1 ≤ 1 <<< 31 := by
    rw [Nat.one_shiftLeft, Nat.one_shiftLeft]
    exact Nat.pow_le_pow_right (by decide) (hw f.1)
  exact Nat.le_of_lt_succ (Nat.lt_of_lt_of_le (Widths.lt_of_fits (h f hf)) hle)

/-- Whatever is read from a body, whoever wrote it, can be written in no more bytes and in no wider
fields, and the same is read from that. -/
theorem exists_encode_of_decode {body : Bytes} {patch : Patch}
    (h : decode charset body = .ok (w, patch)) :
    ∃ body' w', encode charset patch = .ok body' ∧ widths charset patch = .ok w' ∧
      body'.length ≤ body.length ∧
      (w'.start ≤ w.start ∧ w'.length ≤ w.length ∧ w'.block ≤ w.block ∧ w'.text ≤ w.text) ∧
      decode charset body' = .ok (w', patch) := by
  obtain ⟨hnarrow, es, hencs, hfits, hlength⟩ := exists_edits_of_decode h
  obtain ⟨w', hprepare⟩ := exists_prepareFrom_of_small hencs
    (fun e he => le_maxFieldValue_of_fits hnarrow (hfits e he)) 0 Widths.zero
  have hcovered : w'.Covered w :=
    prepareFrom_least hprepare (fun field => by cases field <;> exact Nat.zero_le _) hfits
  obtain ⟨body', hencode, hbits⟩ := encode_spec hprepare
  refine ⟨body', w', hencode, ?_, ?_, ⟨hcovered .start, hcovered .length, hcovered .block,
    hcovered .textLength⟩, decode_spec hprepare hbits⟩
  · rw [widths, prepare, hprepare]
    rfl
  · have hheader : w'.bits.length = w.bits.length := by
      simp [Widths.bits]
    have hmono := length_bitsFrom_mono hcovered (Nat.le_of_eq hheader) es
    have hbytes := congrArg List.length hbits
    rw [Bits.length_ofBytes, List.length_append] at hbytes
    omega

/-- A body with a width of 31 for a field that no edit has, the others wider than they need to be, and
set bits behind each of its two edits. -/
theorem exists_encode_of_decode_wasteful :
    decode .utf8 [10, 79, 211, 96, 16, 7, 64, 8, 5, 135] =
        .ok (⟨10, 9, 31, 9⟩, [.delete 2 1, .insert 1 [0x61]]) ∧
    ∃ body' w', encode .utf8 [.delete 2 1, .insert 1 [0x61]] = .ok body' ∧
      widths .utf8 [.delete 2 1, .insert 1 [0x61]] = .ok w' ∧ body'.length ≤ 10 ∧
      (w'.start ≤ 10 ∧ w'.length ≤ 9 ∧ w'.block ≤ 31 ∧ w'.text ≤ 9) ∧
      decode .utf8 body' = .ok (w', [.delete 2 1, .insert 1 [0x61]]) :=
  have hdecode : decode .utf8 [10, 79, 211, 96, 16, 7, 64, 8, 5, 135] =
      .ok (⟨10, 9, 31, 9⟩, [.delete 2 1, .insert 1 [0x61]]) := by decide +kernel
  ⟨hdecode, exists_encode_of_decode hdecode⟩

end Body
end EditHistory
