import EditHistory.Proofs.Text.Charset
import EditHistory.Proofs.Wire.Widths

/-! What is written of a patch is read back. Both sides are compared with the list of bits that an
edit takes at a position: the writer appends these bits, and a reader in front of them steps over
them and returns the edit. -/
namespace EditHistory

theorem Action.code_lt (a : Action) : a.code < 1 <<< Action.bits := by
  cases a <;> decide

namespace Edit

/-- No edit is written under the code of the header. -/
theorem code_pos {τ : Type} (e : Edit τ) : 0 < e.action.code := by
  cases e <;> exact Nat.succ_pos _

/-- The fields of an edit as bits. -/
def fieldBits (w : Widths) (fields : List (Field × Nat)) : List Bool :=
  fields.flatMap fun f => Bits.ofNat f.2 (w.get f.1)

def coded (w : Widths) (e : Edit Bytes) : List Bool :=
  Bits.ofNat e.action.code Action.bits ++ fieldBits w e.fields

/-- What follows the fields of an edit that end at a position: its text, or zeros up to the next
byte. -/
def ending (position : Nat) (e : Edit Bytes) : List Bool :=
  match e.text? with
  | some t => Bits.ofBytes t
  | none => Bits.padding position

/-- All bits of an edit that starts at a position. -/
def bitsAt (w : Widths) (position : Nat) (e : Edit Bytes) : List Bool :=
  e.coded w ++ e.ending (position + (e.coded w).length)

end Edit

namespace Body

/-- The bits of edits from a position on, up to the end of the last byte. -/
def bitsFrom (w : Widths) (position : Nat) : List (Edit Bytes) → List Bool
  | [] => Bits.padding position
  | e :: es => e.bitsAt w position ++ bitsFrom w (position + (e.bitsAt w position).length) es

end Body

/-- The bits of a header. -/
def Widths.bits (w : Widths) : List Bool :=
  Bits.ofNat Action.header.code Action.bits ++ (Bits.ofNat w.start Widths.widthBits ++
    (Bits.ofNat w.length Widths.widthBits ++ (Bits.ofNat w.block Widths.widthBits ++
      (Bits.ofNat w.text Widths.widthBits ++ [false]))))

namespace Body

variable {w : Widths} {out : BitWriter}

theorem foldlM_writeBits (hw : w.Narrow) {fields : List (Field × Nat)}
    (hfits : ∀ f ∈ fields, w.fits f.1 f.2) (out : BitWriter) :
    ∃ out', fields.foldlM (fun out f => out.writeBits f.2 (w.get f.1)) out = .ok out' ∧
      out'.bits = out.bits ++ Edit.fieldBits w fields := by
  induction fields generalizing out with
  | nil => exact ⟨out, rfl, by simp [Edit.fieldBits]⟩
  | cons f fields ih =>
    obtain ⟨hf, hrest⟩ := List.forall_mem_cons.mp hfits
    have hwidth : w.get f.1 ≤ maxFieldBits := Nat.le_trans (hw f.1) (by decide)
    obtain ⟨middle, hwrite, hbits⟩ := out.bits_writeBits hwidth (Widths.lt_of_fits hf)
    obtain ⟨out', hfold, hbits'⟩ := ih hrest middle
    refine ⟨out', ?_, ?_⟩
    · rw [List.foldlM_cons, hwrite]
      exact hfold
    · rw [hbits', hbits, List.append_assoc]
      rfl

/-- An edit whose fields fit is written as its bits. -/
theorem writeEdit_spec (hw : w.Narrow) {e : Edit Bytes} (he : e.Fits w) (out : BitWriter) :
    ∃ out', writeEdit w out e = .ok out' ∧ out'.bits = out.bits ++ e.bitsAt w out.bits.length := by
  obtain ⟨first, hfirst, hbits⟩ := out.bits_writeBits (by decide) (Action.code_lt e.action)
  obtain ⟨second, hsecond, hbits'⟩ := foldlM_writeBits hw he first
  have hcoded : second.bits = out.bits ++ e.coded w := by
    rw [hbits', hbits, List.append_assoc]
    rfl
  have hwrite : writeEdit w out e = .ok (match e.text? with
      | some t => second.writeBytes t
      | none => second.padToByte) := by
    rw [Edit.fields] at hsecond
    simp only [writeEdit, hfirst, bind, Except.bind, hsecond]
    rfl
  refine ⟨_, hwrite, ?_⟩
  rw [Edit.bitsAt, Edit.ending, ← List.length_append, ← hcoded, ← List.append_assoc, ← hcoded]
  cases e.text? with
  | some t => exact second.bits_writeBytes t
  | none => exact second.bits_padToByte

theorem foldlM_writeEdit (hw : w.Narrow) {es : List (Edit Bytes)} (hes : ∀ e ∈ es, e.Fits w)
    (out : BitWriter) : ∃ out', es.foldlM (writeEdit w) out = .ok out' ∧
      Bits.padded out'.bits = out.bits ++ bitsFrom w out.bits.length es := by
  induction es generalizing out with
  | nil => exact ⟨out, rfl, rfl⟩
  | cons e es ih =>
    obtain ⟨he, hrest⟩ := List.forall_mem_cons.mp hes
    obtain ⟨middle, hwrite, hbits⟩ := writeEdit_spec hw he out
    obtain ⟨out', hfold, hpadded⟩ := ih hrest middle
    refine ⟨out', ?_, ?_⟩
    · rw [List.foldlM_cons, hwrite]
      exact hfold
    · rw [hpadded, hbits, List.length_append, bitsFrom, List.append_assoc]

theorem writeHeader_spec (hw : w.Narrow) :
    ∃ out, w.write BitWriter.empty = .ok out ∧ out.bits = w.bits := by
  have hlt (field : Field) : w.get field < 1 <<< Widths.widthBits :=
    Nat.lt_of_le_of_lt (hw field) (by decide)
  obtain ⟨out₀, h₀, hbits₀⟩ := BitWriter.empty.bits_writeBits (by decide) (Action.code_lt .header)
  obtain ⟨out₁, h₁, hbits₁⟩ := out₀.bits_writeBits (by decide) (hlt .start)
  obtain ⟨out₂, h₂, hbits₂⟩ := out₁.bits_writeBits (by decide) (hlt .length)
  obtain ⟨out₃, h₃, hbits₃⟩ := out₂.bits_writeBits (by decide) (hlt .block)
  obtain ⟨out₄, h₄, hbits₄⟩ := out₃.bits_writeBits (by decide) (hlt .textLength)
  simp only [Widths.get] at h₁ h₂ h₃ h₄ hbits₁ hbits₂ hbits₃ hbits₄
  refine ⟨out₄.pushBit false, ?_, ?_⟩
  · simp only [Widths.write, h₀, h₁, h₂, h₃, h₄, bind, Except.bind]
    rfl
  · rw [BitWriter.bits_pushBit, hbits₄, hbits₃, hbits₂, hbits₁, hbits₀]
    simp [Widths.bits]

/-- A body is written as the bits of its header and of its edits. -/
theorem write_spec (hw : w.Narrow) {es : List (Edit Bytes)} (hes : ∀ e ∈ es, e.Fits w) :
    ∃ body, write w es = .ok body ∧
      Bits.ofBytes body = w.bits ++ bitsFrom w w.bits.length es := by
  obtain ⟨out, hheader, hbits⟩ := writeHeader_spec hw
  obtain ⟨out', hfold, hpadded⟩ := foldlM_writeEdit hw hes out
  refine ⟨out'.finish, ?_, ?_⟩
  · simp only [write, hheader, bind, Except.bind, hfold]
    rfl
  · rw [BitWriter.ofBytes_finish, hpadded, hbits]

end Body

/-- In front of the bits `field`, with `read` behind it, a reading steps over them and gives `a`. -/
def Reads {α : Type} (p : Reading α) (read field : List Bool) (a : α) : Prop :=
  ∀ r rest, BitReader.Stands r read (field ++ rest) →
    ∃ r', p r = .ok (a, r') ∧ r'.Stands (read ++ field) rest

namespace Reads

variable {α β : Type} {read field field' : List Bool}

theorem cast {p : Reading α} {a : α} (h : Reads p read field a) (heq : field = field') :
    Reads p read field' a := heq ▸ h

theorem pure (a : α) : Reads (Pure.pure a) read [] a := by
  intro r rest h
  rw [List.nil_append] at h
  exact ⟨r, rfl, by rwa [List.append_nil]⟩

theorem bind {p : Reading α} {q : α → Reading β} {a : α} {b : β} (hp : Reads p read field a)
    (hq : Reads (q a) (read ++ field) field' b) : Reads (p >>= q) read (field ++ field') b := by
  intro r rest h
  rw [List.append_assoc] at h
  obtain ⟨middle, hmiddle, hstands⟩ := hp r _ h
  obtain ⟨r', hr', hstands'⟩ := hq middle rest hstands
  refine ⟨r', ?_, by rwa [← List.append_assoc]⟩
  simp only [Bind.bind, StateT.bind, Except.bind, hmiddle]
  exact hr'

theorem readBits (context : Context) {value width : Nat} (hwidth : width ≤ maxFieldBits)
    (hvalue : value < 1 <<< width) :
    Reads (Reading.within context (·.readBits width)) read (Bits.ofNat value width) value := by
  intro r rest h
  obtain ⟨r', hread, hstands⟩ := h.readBits hwidth hvalue
  exact ⟨r', by rw [Reading.within, hread]; rfl, hstands⟩

theorem readBytes (context : Context) (bytes : Bytes) :
    Reads (Reading.within context (·.readBytes bytes.length)) read (Bits.ofBytes bytes) bytes := by
  intro r rest h
  obtain ⟨r', hread, hstands⟩ := h.readBytes
  exact ⟨r', by rw [Reading.within, hread]; rfl, hstands⟩

theorem skipToByte : Reads Reading.skipToByte read (Bits.padding read.length) () :=
  fun r _ h => ⟨r.skipToByte, rfl, h.skipToByte⟩

variable {w : Widths} {charset : Charset} {index : Nat}

theorem readField (hw : w.Narrow) {field : Field} {value : Nat} (h : w.fits field value) :
    Reads (Body.readField w field) read (Bits.ofNat value (w.get field)) value :=
  readBits _ (Nat.le_trans (hw field) (by decide)) (Widths.lt_of_fits h)

theorem readText (hw : w.Narrow) {t : Text} {bytes : Bytes} (henc : charset.encode t = some bytes)
    (hfits : w.fits .textLength bytes.length) :
    Reads (Body.readText charset w index) read
      (Bits.ofNat bytes.length (w.get .textLength) ++ Bits.ofBytes bytes) t := by
  have h : Reads (Body.readText charset w index) read
      (Bits.ofNat bytes.length (w.get .textLength) ++ (Bits.ofBytes bytes ++ [])) t := by
    refine (readField hw hfits).bind ((readBytes .text bytes).bind ?_)
    simp only [Charset.decode_encode henc]
    exact pure t
  rwa [List.append_nil] at h

/-- What follows the action code of an edit is read back. -/
theorem readOperands (hw : w.Narrow) {e : Edit Text} {e' : Edit Bytes}
    (henc : e.mapText? charset.encode = some e') (hfits : e'.Fits w) :
    Reads (Body.readOperands charset w index e'.action) read
      (Edit.fieldBits w e'.fields ++ e'.ending (read.length + (Edit.fieldBits w e'.fields).length))
      (some e) := by
  have hfield {read : List Bool} {field : Field} {value : Nat} (h : (field, value) ∈ e'.fields) :
      Reads (Body.readField w field) read (Bits.ofNat value (w.get field)) value :=
    readField hw (hfits (field, value) h)
  have htext {read : List Bool} {t : Text} {bytes : Bytes} (ht : charset.encode t = some bytes)
      (h : (Field.textLength, bytes.length) ∈ e'.fields) :
      Reads (Body.readText charset w index) read
        (Bits.ofNat bytes.length (w.get .textLength) ++ Bits.ofBytes bytes) t :=
    readText hw ht (hfits (.textLength, bytes.length) h)
  cases e with
  | full t =>
    obtain ⟨bytes, ht, he⟩ := Option.bind_eq_some_iff.mp henc
    obtain rfl := Option.some.inj he
    simp only [Edit.fields_full] at htext
    refine Reads.cast ((htext ht (by simp)).bind (pure _)) ?_
    simp [Edit.fieldBits, Edit.ending, Edit.text?]
  | insert start t =>
    obtain ⟨bytes, ht, he⟩ := Option.bind_eq_some_iff.mp henc
    obtain rfl := Option.some.inj he
    simp only [Edit.fields_insert] at hfield htext
    refine Reads.cast ((hfield (by simp)).bind ((htext ht (by simp)).bind (pure _))) ?_
    simp [Edit.fieldBits, Edit.ending, Edit.text?]
  | delete start length =>
    obtain rfl := Option.some.inj henc
    simp only [Edit.fields_delete] at hfield
    refine Reads.cast ((hfield (by simp)).bind ((hfield (by simp)).bind
      (skipToByte.bind (pure _)))) ?_
    simp [Edit.fieldBits, Edit.ending, Edit.text?]
  | replace start length t =>
    obtain ⟨bytes, ht, he⟩ := Option.bind_eq_some_iff.mp henc
    obtain rfl := Option.some.inj he
    simp only [Edit.fields_replace] at hfield htext
    refine Reads.cast ((hfield (by simp)).bind ((hfield (by simp)).bind
      ((htext ht (by simp)).bind (pure _)))) ?_
    simp [Edit.fieldBits, Edit.ending, Edit.text?]
  | cut start length block =>
    obtain rfl := Option.some.inj henc
    simp only [Edit.fields_cut] at hfield
    refine Reads.cast ((hfield (by simp)).bind ((hfield (by simp)).bind ((hfield (by simp)).bind
      (skipToByte.bind (pure _))))) ?_
    simp [Edit.fieldBits, Edit.ending, Edit.text?]
  | paste start block =>
    obtain rfl := Option.some.inj henc
    simp only [Edit.fields_paste] at hfield
    refine Reads.cast ((hfield (by simp)).bind ((hfield (by simp)).bind
      (skipToByte.bind (pure _)))) ?_
    simp [Edit.fieldBits, Edit.ending, Edit.text?]

/-- An edit is read back from its bits. -/
theorem readEdit (hw : w.Narrow) {e : Edit Text} {e' : Edit Bytes}
    (henc : e.mapText? charset.encode = some e') (hfits : e'.Fits w) (index : Nat) :
    Reads (Body.readEdit charset w index) read (e'.bitsAt w read.length) e := by
  intro r rest h
  have hcoded : Reads (Body.readCoded charset w index r.position e'.action.code)
      (read ++ Bits.ofNat e'.action.code Action.bits)
      (Edit.fieldBits w e'.fields ++ e'.ending (read.length + (e'.coded w).length)) e := by
    simp only [Body.readCoded, Action.ofCode?_code]
    refine ((readOperands hw henc hfits).bind (pure e)).cast ?_
    simp [Edit.coded, Nat.add_assoc]
  refine Reads.cast ((readBits .action (by decide) (Action.code_lt e'.action)).bind hcoded) ?_ r rest h
  rw [Edit.bitsAt, Edit.coded, List.append_assoc]

/-- A header is read back from its bits. -/
theorem readWidths (hw : w.Narrow) : Reads Widths.read read w.bits w := by
  have hlt (field : Field) : w.get field < 1 <<< Widths.widthBits :=
    Nat.lt_of_le_of_lt (hw field) (by decide)
  have hfield {read : List Bool} (field : Field) :
      Reads (Reading.within .header (·.readBits Widths.widthBits)) read
        (Bits.ofNat (w.get field) Widths.widthBits) (w.get field) :=
    readBits .header (by decide) (hlt field)
  have hbit {read : List Bool} :
      Reads (Reading.within .header (·.readBit)) read [false] false := by
    intro r rest h
    obtain ⟨r', hread, hstands⟩ := BitReader.Stands.readBit h
    refine ⟨r', ?_, hstands⟩
    simp only [Reading.within, hread]
    rfl
  refine (readBits .header (by decide) (Action.code_lt .header)).bind ?_
  refine (hfield .start).bind ((hfield .length).bind ((hfield .block).bind
    ((hfield .textLength).bind (hbit.bind (pure w)))))

end Reads

namespace Body

variable {w : Widths} {charset : Charset} {r : BitReader} {read rest : List Bool}

/-- The zeros behind the last edit are not taken for an edit. -/
theorem atEnd_of_stands (h : r.Stands read (Bits.padding read.length)) : atEnd r := by
  rw [atEnd, h.atPadding, Bool.or_true]

/-- Before an edit there are at least three bits, and they are not all zero. -/
theorem not_atEnd_of_stands {code : Nat} (hpos : 0 < code) (hcode : code < 1 <<< Action.bits)
    (h : r.Stands read (Bits.ofNat code Action.bits ++ rest)) : ¬ atEnd r := by
  have hlen : Action.bits ≤ r.remaining := by
    rw [h.remaining_eq, List.length_append, Bits.length_ofNat]
    omega
  have hvalue := h.value_eq
  have hle := Bits.le_toNatFrom code rest
  rw [Bits.toNat, Bits.toNatFrom_append, ← Bits.toNat, Bits.toNat_ofNat hcode] at hvalue
  simp only [atEnd, BitReader.atPadding, Bool.or_eq_true, Bool.and_eq_true, decide_eq_true_eq,
    beq_iff_eq, hvalue]
  omega

theorem readEdits_of_error {index : Nat} {err : DecodeError} (hmore : ¬ atEnd r)
    (h : readEdit charset w index r = .error err) : readEdits charset w index r = .error err := by
  rw [readEdits, dif_neg hmore]
  split
  · rename_i err' herr
    rw [h] at herr
    obtain rfl := Except.error.inj herr
    rfl
  · rename_i e r' hok
    rw [h] at hok
    cases hok

theorem readEdits_of_ok {index : Nat} {e : Edit Text} {r' : BitReader} (hmore : ¬ atEnd r)
    (h : readEdit charset w index r = .ok (e, r')) :
    readEdits charset w index r = (e :: ·) <$> readEdits charset w (index + 1) r' := by
  rw [readEdits, dif_neg hmore]
  split
  · rename_i err herr
    rw [h] at herr
    cases herr
  · rename_i e₁ r₁ hok
    obtain ⟨rfl, rfl⟩ := Prod.mk.inj (Except.ok.inj (h.symm.trans hok))
    rfl

/-- The edits of a body are read back, and nothing else is. -/
theorem readEdits_spec (hw : w.Narrow) {patch : Patch} {es : List (Edit Bytes)}
    (henc : List.Forall₂ (fun e e' => e.mapText? charset.encode = some e') patch es)
    (hfits : ∀ e ∈ es, e.Fits w) (index : Nat)
    (h : r.Stands read (bitsFrom w read.length es)) :
    readEdits charset w index r = .ok patch := by
  induction henc generalizing read r index with
  | nil => rw [readEdits, dif_pos (atEnd_of_stands h)]
  | @cons e e' patch es he hrest ih =>
    obtain ⟨hfit, hfits⟩ := List.forall_mem_cons.mp hfits
    obtain ⟨r', hread, hstands⟩ := Reads.readEdit hw he hfit index r _ h
    have hmore : ¬ atEnd r := by
      rw [bitsFrom, Edit.bitsAt, Edit.coded, List.append_assoc, List.append_assoc] at h
      exact not_atEnd_of_stands e'.code_pos (Action.code_lt _) h
    rw [← List.length_append] at hstands
    rw [readEdits_of_ok hmore hread, ih hfits (index + 1) hstands]
    rfl

theorem encode_spec {charset : Charset} {patch : Patch} {es : List (Edit Bytes)}
    (h : prepare charset patch = .ok (w, es)) :
    ∃ body, encode charset patch = .ok body ∧
      Bits.ofBytes body = w.bits ++ bitsFrom w w.bits.length es := by
  obtain ⟨-, hnarrow, hfits, -⟩ := prepareFrom_spec h
  obtain ⟨body, hwrite, hbits⟩ := write_spec (hnarrow Widths.narrow_zero) hfits
  refine ⟨body, ?_, hbits⟩
  simp only [encode, h, bind, Except.bind, hwrite]
  rfl

/-- A body that is written holds what was prepared. -/
theorem exists_prepare_of_encode {patch : Patch} {body : Bytes} (h : encode charset patch = .ok body) :
    ∃ w es, prepare charset patch = .ok (w, es) ∧
      Bits.ofBytes body = w.bits ++ bitsFrom w w.bits.length es := by
  cases hprepare : prepare charset patch with
  | error err =>
    rw [encode, hprepare] at h
    cases h
  | ok pair =>
    obtain ⟨body', hencode, hbits⟩ := encode_spec hprepare
    obtain rfl := Except.ok.inj (hencode.symm.trans h)
    exact ⟨pair.1, pair.2, rfl, hbits⟩

theorem decode_of_header_error {body : Bytes} {err : DecodeError}
    (h : Widths.read (BitReader.ofBytes body) = .error err) :
    ∃ err', decode charset body = .error err' := by
  by_cases hempty : body.isEmpty
  · exact ⟨.empty, by rw [decode, if_pos hempty]; rfl⟩
  · refine ⟨err, ?_⟩
    simp only [decode, hempty, StateT.run, h]
    rfl

theorem decode_of_header {body : Bytes} (hne : ¬ body.isEmpty)
    (h : Widths.read (BitReader.ofBytes body) = .ok (w, r)) :
    decode charset body = (w, ·) <$> readEdits charset w 0 r := by
  simp only [decode, hne, StateT.run, h]
  rfl

theorem decode_spec {patch : Patch} {es : List (Edit Bytes)} {body : Bytes}
    (h : prepare charset patch = .ok (w, es))
    (hbody : Bits.ofBytes body = w.bits ++ bitsFrom w w.bits.length es) :
    decode charset body = .ok (w, patch) := by
  obtain ⟨-, hnarrow, hfits, henc⟩ := prepareFrom_spec h
  have hw := hnarrow Widths.narrow_zero
  have hstart := BitReader.stands_ofBytes body
  rw [hbody] at hstart
  obtain ⟨r, hread, hstands⟩ := Reads.readWidths hw _ _ hstart
  have hedits := readEdits_spec hw henc hfits 0 hstands
  have hne : ¬ body.isEmpty := by
    intro hempty
    obtain rfl := List.isEmpty_iff.mp hempty
    have hlen := congrArg List.length hbody
    simp [Widths.bits] at hlen
  rw [decode_of_header hne hread, hedits]
  rfl

/-- Whatever patch a body is written of, the body holds the widths and exactly the edits of the
patch: none is lost at the end, and the zeros that fill up the last byte give none. -/
theorem decode_of_encode {patch : Patch} {body : Bytes} (h : encode charset patch = .ok body) :
    ∃ w, widths charset patch = .ok w ∧ decode charset body = .ok (w, patch) := by
  cases hprepare : prepare charset patch with
  | error err =>
    rw [encode, hprepare] at h
    cases h
  | ok pair =>
    obtain ⟨w, es⟩ := pair
    obtain ⟨body', hencode, hbits⟩ := encode_spec hprepare
    obtain rfl := Except.ok.inj (hencode.symm.trans h)
    refine ⟨w, ?_, decode_spec hprepare hbits⟩
    rw [widths, hprepare]
    rfl

set_option maxRecDepth 4000 in
/-- A body with all six kinds of edits, an empty text at its end. -/
theorem decode_of_encode_mixed :
    encode .utf8 [.insert 0 [0x61], .delete 0 1, .cut 1 2 0, .replace 3 1 [0xD83D, 0xDE00],
      .paste 4 0, .full []] =
        .ok [3, 16, 6, 64, 176, 176, 128, 166, 141, 158, 19, 243, 16, 26, 0, 32] ∧
    ∃ w, widths .utf8 [.insert 0 [0x61], .delete 0 1, .cut 1 2 0, .replace 3 1 [0xD83D, 0xDE00],
      .paste 4 0, .full []] = .ok w ∧
        decode .utf8 [3, 16, 6, 64, 176, 176, 128, 166, 141, 158, 19, 243, 16, 26, 0, 32] =
          .ok (w, [.insert 0 [0x61], .delete 0 1, .cut 1 2 0, .replace 3 1 [0xD83D, 0xDE00],
            .paste 4 0, .full []]) :=
  ⟨rfl, decode_of_encode rfl⟩

end Body
end EditHistory
