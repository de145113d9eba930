import EditHistory.Proofs.Text.Utf8
import EditHistory.Proofs.Wire.Body

/-! What a successful read tells, whoever wrote the bytes. The reader stays in them, and an edit that is
read takes as many bits as it is written in at the same widths, however wide these are and whatever
bits are in the places of padding. -/
namespace EditHistory

namespace BitReader

/-- The reader stands inside its bytes or at their end. -/
def Inside (r : BitReader) : Prop := r.position ≤ r.bytes.size * 8

/-- From `r` to `r'` are `count` bits. -/
structure Steps (r r' : BitReader) (count : Nat) : Prop where
  bytes_eq : r'.bytes = r.bytes
  position_eq : r'.position = r.position + count
  inside : r.Inside → r'.Inside

variable {r r' r'' : BitReader} {m n : Nat}

theorem inside_ofBytes (bytes : Bytes) : (ofBytes bytes).Inside := Nat.zero_le _

theorem Steps.trans (h : r.Steps r' m) (h' : r'.Steps r'' n) : r.Steps r'' (m + n) :=
  ⟨h'.bytes_eq.trans h.bytes_eq, by rw [h'.position_eq, h.position_eq, Nat.add_assoc],
    h'.inside ∘ h.inside⟩

theorem valueFrom_lt (bytes : Array UInt8) (position acc width : Nat) :
    valueFrom bytes position acc width < (acc + 1) <<< width := by
  induction width generalizing position acc with
  | zero => simp [valueFrom]
  | succ width ih =>
    have h := ih (position + 1) (2 * acc + (bitAt bytes position).toNat)
    have hbit : (bitAt bytes position).toNat ≤ 1 := Bool.toNat_le _
    rw [valueFrom]
    refine Nat.lt_of_lt_of_le h ?_
    rw [Nat.shiftLeft_eq, Nat.shiftLeft_eq, Nat.pow_succ', ← Nat.mul_assoc]
    exact Nat.mul_le_mul_right _ (by omega)

theorem steps_readBits {value width : Nat} (h : r.readBits width = .ok (value, r')) :
    r.Steps r' width ∧ value < 1 <<< width := by
  rw [readBits] at h
  split at h
  · cases h
  · split at h
    · cases h
    · rename_i hleft
      obtain ⟨rfl, rfl⟩ := Prod.mk.inj (Except.ok.inj h)
      refine ⟨⟨rfl, rfl, fun hinside => ?_⟩, valueFrom_lt r.bytes r.position 0 width⟩
      simp only [Inside, remaining] at hinside hleft ⊢
      omega

theorem steps_readBit {bit : Bool} (h : r.readBit = .ok (bit, r')) : r.Steps r' 1 := by
  obtain ⟨⟨value, after⟩, hvalue, hbit⟩ := bind_eq_ok.mp h
  obtain ⟨-, rfl⟩ := Prod.mk.inj (Except.ok.inj hbit)
  exact (steps_readBits hvalue).1

theorem length_bytesFrom (bytes : Array UInt8) (position count : Nat) :
    (bytesFrom bytes position count).length = count := by
  induction count generalizing position with
  | zero => rfl
  | succ count ih => rw [bytesFrom, List.length_cons, ih]

theorem steps_readBytes {bytes : Bytes} {count : Nat} (h : r.readBytes count = .ok (bytes, r')) :
    r.Steps r' (count * 8) ∧ bytes.length = count := by
  rw [readBytes] at h
  split at h
  · cases h
  · rename_i hleft
    obtain ⟨rfl, rfl⟩ := Prod.mk.inj (Except.ok.inj h)
    refine ⟨⟨rfl, rfl, fun hinside => ?_⟩, ?_⟩
    · simp only [Inside, remaining] at hinside hleft ⊢
      omega
    · split
      · simp only [remaining] at hleft
        rw [Array.length_toList, Array.size_extract]
        omega
      · exact length_bytesFrom _ _ _

theorem steps_skipToByte (r : BitReader) : r.Steps r.skipToByte (Bits.padding r.position).length := by
  rw [Bits.padding, List.length_replicate]
  refine ⟨rfl, ?_, fun hinside => ?_⟩
  · simp only [skipToByte]
    omega
  · simp only [Inside, skipToByte] at hinside ⊢
    omega

end BitReader

namespace Reading

variable {α β : Type} {r r' : BitReader}

theorem bind_eq_ok {p : Reading α} {q : α → Reading β} {b : β} :
    (p >>= q) r = .ok (b, r') ↔ ∃ a middle, p r = .ok (a, middle) ∧ q a middle = .ok (b, r') := by
  show (p r >>= fun x => q x.1 x.2) = _ ↔ _
  rw [EditHistory.bind_eq_ok, Prod.exists]

theorem pure_eq_ok {a b : α} : (pure a : Reading α) r = .ok (b, r') ↔ a = b ∧ r = r' := by
  show Except.ok (a, r) = .ok (b, r') ↔ _
  rw [Except.ok.injEq, Prod.mk.injEq]

theorem some_eq_ok {a b : α} :
    (pure (some a) : Reading (Option α)) r = .ok (some b, r') ↔ a = b ∧ r = r' := by
  rw [pure_eq_ok, Option.some.injEq]

theorem steps_readBits {context : Context} {value width : Nat}
    (h : within context (·.readBits width) r = .ok (value, r')) :
    r.Steps r' width ∧ value < 1 <<< width :=
  BitReader.steps_readBits (mapError_eq_ok.mp h)

theorem steps_readBytes {context : Context} {bytes : Bytes} {count : Nat}
    (h : within context (·.readBytes count) r = .ok (bytes, r')) :
    r.Steps r' (count * 8) ∧ bytes.length = count :=
  BitReader.steps_readBytes (mapError_eq_ok.mp h)

theorem steps_skipToByte {u : Unit} (h : skipToByte r = .ok (u, r')) :
    r.Steps r' (Bits.padding r.position).length := by
  obtain ⟨-, rfl⟩ := Prod.mk.inj (Except.ok.inj h)
  exact r.steps_skipToByte

/-- Fields, and then what is left of the byte in which they end. -/
theorem steps_padded {middle : BitReader} {n : Nat} (hfields : r.Steps middle n) {u : Unit}
    (h : skipToByte middle = .ok (u, r')) :
    r.Steps r' (n + (Bits.padding (r.position + n)).length) := by
  rw [← hfields.position_eq]
  exact hfields.trans (steps_skipToByte h)

end Reading

namespace Edit

@[simp] theorem length_fieldBits_nil (w : Widths) : (fieldBits w []).length = 0 := rfl

@[simp] theorem length_fieldBits_cons (w : Widths) (f : Field × Nat) (fields : List (Field × Nat)) :
    (fieldBits w (f :: fields)).length = w.get f.1 + (fieldBits w fields).length := by
  show (Bits.ofNat f.2 (w.get f.1) ++ fieldBits w fields).length = _
  rw [List.length_append, Bits.length_ofNat]

end Edit

namespace Body

variable {charset : Charset} {w : Widths} {index : Nat} {r r' : BitReader}

theorem steps_readField {field : Field} {value : Nat} (h : readField w field r = .ok (value, r')) :
    r.Steps r' (w.get field) ∧ w.fits field value := by
  obtain ⟨hsteps, hlt⟩ := Reading.steps_readBits h
  refine ⟨hsteps, ?_⟩
  rw [Widths.fits, decide_eq_true_eq]
  exact bitCount_le_of_lt hlt

theorem steps_readText {t : Text} (h : readText charset w index r = .ok (t, r')) :
    ∃ bytes, charset.encode t = some bytes ∧ w.fits .textLength bytes.length ∧
      r.Steps r' (w.get .textLength + bytes.length * 8) := by
  obtain ⟨length, middle, hlength, hrest⟩ := Reading.bind_eq_ok.mp h
  obtain ⟨bytes, after, hbytes, hdecode⟩ := Reading.bind_eq_ok.mp hrest
  obtain ⟨hsteps, hfits⟩ := steps_readField hlength
  obtain ⟨hsteps', rfl⟩ := Reading.steps_readBytes hbytes
  cases htext : charset.decode bytes with
  | error fault =>
    simp only [htext] at hdecode
    cases hdecode
  | ok text =>
    simp only [htext] at hdecode
    obtain ⟨rfl, rfl⟩ := Reading.pure_eq_ok.mp hdecode
    exact ⟨bytes, Charset.encode_decode htext, hfits, hsteps.trans hsteps'⟩

/-- What is read behind an action code takes the bits of the fields of an edit, which fit, and those of
its ending. -/
theorem steps_readOperands {action : Action} {e : Edit Text}
    (h : readOperands charset w index action r = .ok (some e, r')) :
    ∃ e', e.mapText? charset.encode = some e' ∧ e'.Fits w ∧
      r.Steps r' ((Edit.fieldBits w e'.fields).length +
        (e'.ending (r.position + (Edit.fieldBits w e'.fields).length)).length) := by
  cases action with
  | header =>
    obtain ⟨hnone, -⟩ := Reading.pure_eq_ok.mp h
    cases hnone
  | full =>
    obtain ⟨t, after, ht, hend⟩ := Reading.bind_eq_ok.mp h
    obtain ⟨rfl, rfl⟩ := Reading.some_eq_ok.mp hend
    obtain ⟨bytes, henc, hfits, hsteps⟩ := steps_readText ht
    refine ⟨.full bytes, by simp [Edit.mapText?, henc], by simpa [Edit.Fits] using hfits, ?_⟩
    simpa [Edit.ending, Edit.text?] using hsteps
  | insert =>
    obtain ⟨start, middle, hstart, hrest⟩ := Reading.bind_eq_ok.mp h
    obtain ⟨t, after, ht, hend⟩ := Reading.bind_eq_ok.mp hrest
    obtain ⟨rfl, rfl⟩ := Reading.some_eq_ok.mp hend
    obtain ⟨hsteps, hfits⟩ := steps_readField hstart
    obtain ⟨bytes, henc, hfits', hsteps'⟩ := steps_readText ht
    refine ⟨.insert start bytes, by simp [Edit.mapText?, henc],
      by simpa [Edit.Fits] using ⟨hfits, hfits'⟩, ?_⟩
    simpa [Edit.ending, Edit.text?, Nat.add_assoc] using hsteps.trans hsteps'
  | delete =>
    obtain ⟨start, first, hstart, hrest⟩ := Reading.bind_eq_ok.mp h
    obtain ⟨length, second, hlength, hrest⟩ := Reading.bind_eq_ok.mp hrest
    obtain ⟨u, after, hskip, hend⟩ := Reading.bind_eq_ok.mp hrest
    obtain ⟨rfl, rfl⟩ := Reading.some_eq_ok.mp hend
    obtain ⟨hsteps, hfits⟩ := steps_readField hstart
    obtain ⟨hsteps', hfits'⟩ := steps_readField hlength
    have hall := Reading.steps_padded (hsteps.trans hsteps') hskip
    refine ⟨.delete start length, rfl, by simpa [Edit.Fits] using ⟨hfits, hfits'⟩, ?_⟩
    simpa [Edit.ending, Edit.text?] using hall
  | replace =>
    obtain ⟨start, first, hstart, hrest⟩ := Reading.bind_eq_ok.mp h
    obtain ⟨length, second, hlength, hrest⟩ := Reading.bind_eq_ok.mp hrest
    obtain ⟨t, after, ht, hend⟩ := Reading.bind_eq_ok.mp hrest
    obtain ⟨rfl, rfl⟩ := Reading.some_eq_ok.mp hend
    obtain ⟨hsteps, hfits⟩ := steps_readField hstart
    obtain ⟨hsteps', hfits'⟩ := steps_readField hlength
    obtain ⟨bytes, henc, hfits'', hsteps''⟩ := steps_readText ht
    have hall := hsteps.trans (hsteps'.trans hsteps'')
    refine ⟨.replace start length bytes, by simp [Edit.mapText?, henc],
      by simpa [Edit.Fits] using ⟨hfits, hfits', hfits''⟩, ?_⟩
    simpa [Edit.ending, Edit.text?, Nat.add_assoc] using hall
  | cut =>
    obtain ⟨start, first, hstart, hrest⟩ := Reading.bind_eq_ok.mp h
    obtain ⟨length, second, hlength, hrest⟩ := Reading.bind_eq_ok.mp hrest
    obtain ⟨block, third, hblock, hrest⟩ := Reading.bind_eq_ok.mp hrest
    obtain ⟨u, after, hskip, hend⟩ := Reading.bind_eq_ok.mp hrest
    obtain ⟨rfl, rfl⟩ := Reading.some_eq_ok.mp hend
    obtain ⟨hsteps, hfits⟩ := steps_readField hstart
    obtain ⟨hsteps', hfits'⟩ := steps_readField hlength
    obtain ⟨hsteps'', hfits''⟩ := steps_readField hblock
    have hall := Reading.steps_padded (hsteps.trans (hsteps'.trans hsteps'')) hskip
    refine ⟨.cut start length block, rfl, by simpa [Edit.Fits] using ⟨hfits, hfits', hfits''⟩, ?_⟩
    simpa [Edit.ending, Edit.text?] using hall
  | paste =>
    obtain ⟨start, first, hstart, hrest⟩ := Reading.bind_eq_ok.mp h
    obtain ⟨block, second, hblock, hrest⟩ := Reading.bind_eq_ok.mp hrest
    obtain ⟨u, after, hskip, hend⟩ := Reading.bind_eq_ok.mp hrest
    obtain ⟨rfl, rfl⟩ := Reading.some_eq_ok.mp hend
    obtain ⟨hsteps, hfits⟩ := steps_readField hstart
    obtain ⟨hsteps', hfits'⟩ := steps_readField hblock
    have hall := Reading.steps_padded (hsteps.trans hsteps') hskip
    refine ⟨.paste start block, rfl, by simpa [Edit.Fits] using ⟨hfits, hfits'⟩, ?_⟩
    simpa [Edit.ending, Edit.text?] using hall

/-- An edit that is read fits, and takes as many bits as it is written in. -/
theorem steps_readEdit {e : Edit Text} (h : readEdit charset w index r = .ok (e, r')) :
    ∃ e', e.mapText? charset.encode = some e' ∧ e'.Fits w ∧
      r.Steps r' (e'.bitsAt w r.position).length := by
  obtain ⟨code, middle, hcode, hrest⟩ := Reading.bind_eq_ok.mp h
  obtain ⟨hsteps, -⟩ := Reading.steps_readBits hcode
  cases haction : Action.ofCode? code with
  | none =>
    simp only [readCoded, haction] at hrest
    cases hrest
  | some action =>
    simp only [readCoded, haction] at hrest
    obtain ⟨read, after, hread, hend⟩ := Reading.bind_eq_ok.mp hrest
    cases read with
    | none => cases hend
    | some e₁ =>
      obtain ⟨rfl, rfl⟩ := Reading.pure_eq_ok.mp hend
      obtain ⟨e', henc, hfits, hsteps'⟩ := steps_readOperands hread
      rw [hsteps.position_eq] at hsteps'
      refine ⟨e', henc, hfits, ?_⟩
      simpa [Edit.bitsAt, Edit.coded, Nat.add_assoc] using hsteps.trans hsteps'

/-- The edits that are read fit, and they are written in no more bits than are left. -/
theorem exists_edits_of_readEdits {patch : Patch} (h : readEdits charset w index r = .ok patch)
    (hinside : r.Inside) :
    ∃ es, List.Forall₂ (fun e e' => e.mapText? charset.encode = some e') patch es ∧
      (∀ e ∈ es, e.Fits w) ∧
      r.position + (bitsFrom w r.position es).length ≤ r.bytes.size * 8 := by
  fun_induction readEdits charset w index r generalizing patch with
  | case1 index r hend =>
    obtain rfl := Except.ok.inj h
    refine ⟨[], .nil, by simp, ?_⟩
    rw [BitReader.Inside] at hinside
    rw [bitsFrom, Bits.padding, List.length_replicate]
    omega
  | case2 index r hmore err herr => cases h
  | case3 index r hmore e r' he hless ih =>
    obtain ⟨rest, hrest, hpatch⟩ := bind_eq_ok.mp h
    obtain rfl := Except.ok.inj hpatch
    obtain ⟨e', henc, hfits, hsteps⟩ := steps_readEdit he
    obtain ⟨es, hencs, hall, hlength⟩ := ih hrest (hsteps.inside hinside)
    refine ⟨e' :: es, .cons henc hencs, List.forall_mem_cons.mpr ⟨hfits, hall⟩, ?_⟩
    rw [hsteps.bytes_eq, hsteps.position_eq] at hlength
    rw [bitsFrom, List.length_append, ← Nat.add_assoc]
    exact hlength

/-- A header that is read gives widths that a header can hold. -/
theorem steps_readWidths (h : Widths.read r = .ok (w, r')) :
    w.Narrow ∧ r.Steps r' w.bits.length := by
  obtain ⟨marker, first, hmarker, hrest⟩ := Reading.bind_eq_ok.mp h
  by_cases hcode : marker = Action.header.code
  case neg =>
    simp only [ne_eq, hcode, not_false_eq_true, if_true] at hrest
    cases hrest
  simp only [ne_eq, hcode, not_true_eq_false, if_false] at hrest
  obtain ⟨start, second, hstart, hrest⟩ := Reading.bind_eq_ok.mp hrest
  obtain ⟨length, third, hlength, hrest⟩ := Reading.bind_eq_ok.mp hrest
  obtain ⟨block, fourth, hblock, hrest⟩ := Reading.bind_eq_ok.mp hrest
  obtain ⟨text, fifth, htext, hrest⟩ := Reading.bind_eq_ok.mp hrest
  obtain ⟨reserved, last, hreserved, hend⟩ := Reading.bind_eq_ok.mp hrest
  obtain ⟨rfl, rfl⟩ := Reading.pure_eq_ok.mp hend
  obtain ⟨hsteps₀, -⟩ := Reading.steps_readBits hmarker
  obtain ⟨hsteps₁, hlt₁⟩ := Reading.steps_readBits hstart
  obtain ⟨hsteps₂, hlt₂⟩ := Reading.steps_readBits hlength
  obtain ⟨hsteps₃, hlt₃⟩ := Reading.steps_readBits hblock
  obtain ⟨hsteps₄, hlt₄⟩ := Reading.steps_readBits htext
  have hsteps₅ : fifth.Steps last 1 := BitReader.steps_readBit (mapError_eq_ok.mp hreserved)
  constructor
  · intro field
    cases field with
    | start => exact Nat.le_of_lt_succ hlt₁
    | length => exact Nat.le_of_lt_succ hlt₂
    | block => exact Nat.le_of_lt_succ hlt₃
    | textLength => exact Nat.le_of_lt_succ hlt₄
  · have hall := hsteps₀.trans (hsteps₁.trans (hsteps₂.trans (hsteps₃.trans (hsteps₄.trans hsteps₅))))
    simpa [Widths.bits] using hall

/-- At the widths of its header what is read from a body is written in no more bits than the body has. -/
theorem exists_edits_of_decode {body : Bytes} {patch : Patch}
    (h : decode charset body = .ok (w, patch)) :
    w.Narrow ∧ ∃ es, List.Forall₂ (fun e e' => e.mapText? charset.encode = some e') patch es ∧
      (∀ e ∈ es, e.Fits w) ∧ w.bits.length + (bitsFrom w w.bits.length es).length ≤ body.length * 8 := by
  rw [decode] at h
  split at h
  · cases h
  · obtain ⟨⟨widths, r⟩, hheader, hedits⟩ := bind_eq_ok.mp h
    obtain ⟨edits, hread, hend⟩ := bind_eq_ok.mp hedits
    obtain ⟨rfl, rfl⟩ := Prod.mk.inj (Except.ok.inj hend)
    obtain ⟨hnarrow, hsteps⟩ := steps_readWidths hheader
    obtain ⟨es, hencs, hfits, hlength⟩ :=
      exists_edits_of_readEdits hread (hsteps.inside (BitReader.inside_ofBytes body))
    rw [hsteps.bytes_eq, hsteps.position_eq] at hlength
    refine ⟨hnarrow, es, hencs, hfits, ?_⟩
    simpa [BitReader.ofBytes] using hlength

end Body
end EditHistory
