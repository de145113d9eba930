import EditHistory.Wire.Body
import EditHistory.Proofs.Wire.Bits
import EditHistory.Proofs.Result

/-! The widths of a header. They only grow while the fields of a patch are observed; in the end every
field of every edit fits, no width is larger than that takes, and none is too large for the header
itself. -/
namespace EditHistory

theorem lt_shiftLeft_bitCount (value : Nat) : value < 1 <<< bitCount value := by
  by_cases h : value = 0
  · simp [bitCount, h]
  · rw [Nat.one_shiftLeft, bitCount, if_neg h]
    exact Nat.lt_log2_self

theorem bitCount_le_of_lt {value width : Nat} (h : value < 1 <<< width) : bitCount value ≤ width := by
  by_cases hne : value = 0
  · rw [bitCount, if_pos hne]
    exact Nat.zero_le _
  · rw [Nat.one_shiftLeft] at h
    rw [bitCount, if_neg hne]
    exact (Nat.log2_lt hne).mpr h

theorem bitCount_le {value : Nat} (h : value ≤ maxFieldValue) : bitCount value ≤ 31 :=
  bitCount_le_of_lt (Nat.lt_of_le_of_lt h (by decide))

namespace Widths

/-- No field of `w` is wider than in `w'`. -/
def Covered (w w' : Widths) : Prop := ∀ field, w.get field ≤ w'.get field

/-- The widths fit into the header. -/
def Narrow (w : Widths) : Prop := ∀ field, w.get field ≤ 31

variable {w w' w'' : Widths}

theorem Covered.refl (w : Widths) : w.Covered w := fun _ => Nat.le_refl _

theorem Covered.trans (h : w.Covered w') (h' : w'.Covered w'') : w.Covered w'' :=
  fun field => Nat.le_trans (h field) (h' field)

theorem narrow_zero : zero.Narrow := by
  intro field
  cases field <;> exact Nat.zero_le _

theorem fits_mono (h : w.Covered w') {field : Field} {value : Nat} (hfits : w.fits field value) :
    w'.fits field value := by
  simp only [fits, decide_eq_true_eq] at hfits ⊢
  exact Nat.le_trans hfits (h field)

theorem lt_of_fits {field : Field} {value : Nat} (h : w.fits field value) :
    value < 1 <<< w.get field := by
  have hlt := lt_shiftLeft_bitCount value
  simp only [fits, decide_eq_true_eq] at h
  rw [Nat.one_shiftLeft] at hlt ⊢
  exact Nat.lt_of_lt_of_le hlt (Nat.pow_le_pow_right (by decide) h)

theorem get_widen (w : Widths) (bits : Nat) (field field' : Field) :
    (w.widen bits field).get field' = if field' = field then max (w.get field') bits
      else w.get field' := by
  cases field <;> cases field' <;> rfl

theorem observe_spec {field : Field} {value : Nat} (h : w.observe field value = .ok w') :
    w.Covered w' ∧ (w.Narrow → w'.Narrow) ∧ w'.fits field value := by
  rw [observe] at h
  split at h
  · cases h
  · rename_i hle
    obtain rfl := Except.ok.inj h
    have hcount := bitCount_le (Nat.le_of_not_lt hle)
    refine ⟨?_, ?_, ?_⟩
    · intro field'
      rw [get_widen]
      split
      · exact Nat.le_max_left ..
      · exact Nat.le_refl _
    · intro hw field'
      have := hw field'
      rw [get_widen]
      split <;> omega
    · have hself := get_widen w (bitCount value) field field
      rw [if_pos rfl] at hself
      simp only [fits, decide_eq_true_eq, hself]
      exact Nat.le_max_right ..

theorem foldlM_observe_spec {fields : List (Field × Nat)}
    (h : fields.foldlM (fun w f => w.observe f.1 f.2) w = .ok w') :
    w.Covered w' ∧ (w.Narrow → w'.Narrow) ∧ ∀ f ∈ fields, w'.fits f.1 f.2 := by
  induction fields generalizing w with
  | nil =>
    obtain rfl := Except.ok.inj h
    exact ⟨.refl _, id, by simp⟩
  | cons f fields ih =>
    rw [List.foldlM_cons] at h
    obtain ⟨middle, hobserve, hrest⟩ := bind_eq_ok.mp h
    obtain ⟨hcovered, hnarrow, hfits⟩ := observe_spec hobserve
    obtain ⟨hcovered', hnarrow', hfits'⟩ := ih hrest
    refine ⟨hcovered.trans hcovered', hnarrow' ∘ hnarrow, ?_⟩
    exact List.forall_mem_cons.mpr ⟨fits_mono hcovered' hfits, hfits'⟩

/-- Widths in which the fields fit are not passed. -/
theorem foldlM_observe_least {fields : List (Field × Nat)}
    (h : fields.foldlM (fun w f => w.observe f.1 f.2) w = .ok w') (hw : w.Covered w'')
    (hfits : ∀ f ∈ fields, w''.fits f.1 f.2) : w'.Covered w'' := by
  induction fields generalizing w with
  | nil =>
    obtain rfl := Except.ok.inj h
    exact hw
  | cons f fields ih =>
    obtain ⟨hf, hrest⟩ := List.forall_mem_cons.mp hfits
    rw [List.foldlM_cons] at h
    obtain ⟨middle, hobserve, hfold⟩ := bind_eq_ok.mp h
    refine ih hfold ?_ hrest
    rw [observe] at hobserve
    split at hobserve
    · cases hobserve
    · obtain rfl := Except.ok.inj hobserve
      intro field
      rw [get_widen]
      split
      · rename_i heq
        rw [fits, decide_eq_true_eq, ← heq] at hf
        exact Nat.max_le.mpr ⟨hw field, hf⟩
      · exact hw field

theorem exists_foldlM_observe {fields : List (Field × Nat)}
    (h : ∀ f ∈ fields, f.2 ≤ maxFieldValue) (w : Widths) :
    ∃ w', fields.foldlM (fun w f => w.observe f.1 f.2) w = .ok w' := by
  induction fields generalizing w with
  | nil => exact ⟨w, rfl⟩
  | cons f fields ih =>
    obtain ⟨hf, hrest⟩ := List.forall_mem_cons.mp h
    obtain ⟨w', hw'⟩ := ih hrest (w.widen (bitCount f.2) f.1)
    refine ⟨w', ?_⟩
    rw [List.foldlM_cons, observe, if_neg (Nat.not_lt.mpr hf)]
    exact hw'

end Widths

namespace Edit

/-- Everything that is written of an edit in fields. -/
def fields (e : Edit Bytes) : List (Field × Nat) := e.operands ++ e.textLength

@[simp] theorem fields_full (t : Bytes) : (full t).fields = [(.textLength, t.length)] := rfl
@[simp] theorem fields_insert (start : Nat) (t : Bytes) :
    (insert start t).fields = [(.start, start), (.textLength, t.length)] := rfl
@[simp] theorem fields_delete (start length : Nat) :
    (delete start length).fields = [(.start, start), (.length, length)] := rfl
@[simp] theorem fields_replace (start length : Nat) (t : Bytes) : (replace start length t).fields =
    [(.start, start), (.length, length), (.textLength, t.length)] := rfl
@[simp] theorem fields_cut (start length block : Nat) :
    (cut start length block).fields = [(.start, start), (.length, length), (.block, block)] := rfl
@[simp] theorem fields_paste (start block : Nat) :
    (paste start block).fields = [(.start, start), (.block, block)] := rfl

def Fits (e : Edit Bytes) (w : Widths) : Prop := ∀ f ∈ e.fields, w.fits f.1 f.2

end Edit

namespace Body

variable {charset : Charset} {patch : Patch} {es : List (Edit Bytes)} {w w' : Widths} {index : Nat}

theorem observe_spec {e : Edit Bytes} (h : observe w e = .ok w') :
    w.Covered w' ∧ (w.Narrow → w'.Narrow) ∧ e.Fits w' := by
  obtain ⟨hcovered, hnarrow, hfits⟩ := Widths.foldlM_observe_spec h
  refine ⟨hcovered, hnarrow, fun f hf => hfits f ?_⟩
  rw [Edit.fields, List.mem_append] at hf
  exact List.mem_append.mpr hf.symm

theorem observe_least {e : Edit Bytes} (h : observe w e = .ok w') {v : Widths} (hw : w.Covered v)
    (hfits : e.Fits v) : w'.Covered v := by
  refine Widths.foldlM_observe_least h hw fun f hf => hfits f ?_
  rw [Edit.fields, List.mem_append]
  exact (List.mem_append.mp hf).symm

/-- The edits are prepared one by one, and the widths are wide enough for all of them. -/
theorem prepareFrom_spec (h : prepareFrom charset index w patch = .ok (w', es)) :
    w.Covered w' ∧ (w.Narrow → w'.Narrow) ∧ (∀ e ∈ es, e.Fits w') ∧
      List.Forall₂ (fun e e' => e.mapText? charset.encode = some e') patch es := by
  induction patch generalizing index w es with
  | nil =>
    obtain ⟨rfl, rfl⟩ := Prod.mk.inj (Except.ok.inj h)
    exact ⟨.refl _, id, by simp, .nil⟩
  | cons e patch ih =>
    rw [prepareFrom] at h
    split at h
    · cases h
    · rename_i e' henc
      obtain ⟨middle, hobserve, hrest⟩ := bind_eq_ok.mp h
      obtain ⟨⟨last, es'⟩, hprepare, hend⟩ := bind_eq_ok.mp hrest
      obtain ⟨rfl, rfl⟩ := Prod.mk.inj (Except.ok.inj hend)
      obtain ⟨hcovered, hnarrow, hfits⟩ := observe_spec hobserve
      obtain ⟨hcovered', hnarrow', hfits', hforall⟩ := ih hprepare
      refine ⟨hcovered.trans hcovered', hnarrow' ∘ hnarrow, ?_, .cons henc hforall⟩
      refine List.forall_mem_cons.mpr ⟨fun f hf => ?_, hfits'⟩
      exact Widths.fits_mono hcovered' (hfits f hf)

/-- The widths are no wider than the edits need. -/
theorem prepareFrom_least (h : prepareFrom charset index w patch = .ok (w', es)) {v : Widths}
    (hw : w.Covered v) (hfits : ∀ e ∈ es, e.Fits v) : w'.Covered v := by
  induction patch generalizing index w es with
  | nil =>
    obtain ⟨rfl, -⟩ := Prod.mk.inj (Except.ok.inj h)
    exact hw
  | cons e patch ih =>
    rw [prepareFrom] at h
    split at h
    · cases h
    · rename_i e' henc
      obtain ⟨middle, hobserve, hrest⟩ := bind_eq_ok.mp h
      obtain ⟨⟨last, es'⟩, hprepare, hend⟩ := bind_eq_ok.mp hrest
      obtain ⟨rfl, rfl⟩ := Prod.mk.inj (Except.ok.inj hend)
      obtain ⟨hfit, hrest⟩ := List.forall_mem_cons.mp hfits
      exact ih hprepare (observe_least hobserve hw hfit) hrest

/-- Preparing succeeds where no number is too large. -/
theorem exists_prepareFrom_of_small
    (hencs : List.Forall₂ (fun e e' => e.mapText? charset.encode = some e') patch es)
    (hsmall : ∀ e ∈ es, ∀ f ∈ e.fields, f.2 ≤ maxFieldValue) (index : Nat) (w : Widths) :
    ∃ w', prepareFrom charset index w patch = .ok (w', es) := by
  induction hencs generalizing index w with
  | nil => exact ⟨w, rfl⟩
  | @cons e e' patch es henc hencs ih =>
    obtain ⟨hfirst, hrest⟩ := List.forall_mem_cons.mp hsmall
    have hfields : ∀ f ∈ e'.textLength ++ e'.operands, f.2 ≤ maxFieldValue := by
      intro f hf
      exact hfirst f (List.mem_append.mpr (List.mem_append.mp hf).symm)
    obtain ⟨middle, hobserve⟩ := Widths.exists_foldlM_observe hfields w
    obtain ⟨w', hes⟩ := ih hrest (index + 1) middle
    refine ⟨w', ?_⟩
    simp only [prepareFrom, henc, observe, hobserve, bind, Except.bind, hes]
    rfl

/-- Preparing succeeds where every text has a form in the charset and no number is too large. -/
theorem exists_prepareFrom (h : ∀ e ∈ patch, ∃ e', e.mapText? charset.encode = some e' ∧
      ∀ f ∈ e'.fields, f.2 ≤ maxFieldValue) (index : Nat) (w : Widths) :
    ∃ w' es, prepareFrom charset index w patch = .ok (w', es) := by
  suffices hes : ∃ es, List.Forall₂ (fun e e' => e.mapText? charset.encode = some e') patch es ∧
      ∀ e ∈ es, ∀ f ∈ e.fields, f.2 ≤ maxFieldValue by
    obtain ⟨es, hencs, hsmall⟩ := hes
    obtain ⟨w', hprepare⟩ := exists_prepareFrom_of_small hencs hsmall index w
    exact ⟨w', es, hprepare⟩
  induction patch with
  | nil => exact ⟨[], .nil, by simp⟩
  | cons e patch ih =>
    obtain ⟨⟨e', henc, hsmall⟩, hrest⟩ := List.forall_mem_cons.mp h
    obtain ⟨es, hencs, hsmalls⟩ := ih hrest
    exact ⟨e' :: es, .cons henc hencs, List.forall_mem_cons.mpr ⟨hsmall, hsmalls⟩⟩

end Body
end EditHistory
