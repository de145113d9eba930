import EditHistory.Proofs.Wire.Body
import Mathlib.Data.List.MinMax
import Mathlib.Order.Nat

/-! Which patches can be written, and in what. A patch is written exactly if none of its edits is at
fault; then every width is what the largest number of its field takes, so that all numbers fit, and the
body is the header and the edits. Otherwise the first fault is the error: the writing itself never
fails. -/
namespace EditHistory

variable {charset : Charset} {patch : Patch} {index : Nat}

namespace Edit

/-- The number that an edit has in a field; the length of a text is counted in bytes. -/
def value? (charset : Charset) (e : Edit Text) : Field → Option Nat
  | .start =>
    match e with
    | .insert start _ | .delete start _ | .replace start _ _ | .cut start _ _ | .paste start _ => some start
    | .full _ => none
  | .length =>
    match e with
    | .delete _ length | .replace _ length _ | .cut _ length _ => some length
    | .full _ | .insert .. | .paste .. => none
  | .block =>
    match e with
    | .cut _ _ block | .paste _ block => some block
    | .full _ | .insert .. | .delete .. | .replace .. => none
  | .textLength => (e.text?.bind charset.encode).map List.length

/-- The text has a form in the charset, and all numbers are below the ceiling of a field. -/
structure IsEncodable (charset : Charset) (e : Edit Text) : Prop where
  text : ∀ t, e.text? = some t → (charset.encode t).isSome
  value : ∀ field value, e.value? charset field = some value → value < 1 <<< 31

/-- Why the edit at `index` cannot be written: its text has no form in the charset or else, in the order
in which they are looked at, the first of its numbers that is too large. -/
def fault? (charset : Charset) (index : Nat) (e : Edit Text) : Option EncodeError :=
  if e.text?.any fun t => (charset.encode t).isNone then some (.unencodableText index charset)
  else [Field.textLength, .start, .length, .block].findSome? fun field =>
    (e.value? charset field).bind fun value =>
      if 1 <<< 31 ≤ value then some (.fieldOverflow field value) else none

theorem fault?_eq_none_iff {e : Edit Text} : e.fault? charset index = none ↔ e.IsEncodable charset := by
  have htext : (e.text?.any fun t => (charset.encode t).isNone) = false ↔
      ∀ t, e.text? = some t → (charset.encode t).isSome := by
    cases e.text? with
    | none => simp
    | some t => cases henc : charset.encode t <;> simp [henc]
  have hvalue (field : Field) : ((e.value? charset field).bind fun value =>
      if 1 <<< 31 ≤ value then some (EncodeError.fieldOverflow field value) else none) = none ↔
        ∀ value, e.value? charset field = some value → value < 1 <<< 31 := by
    cases e.value? charset field with
    | none => simp
    | some value => simp
  rw [fault?]
  split
  · rename_i hany
    refine iff_of_false (by simp) fun h => ?_
    rw [htext.mpr h.text] at hany
    cases hany
  · rename_i hany
    rw [List.findSome?_eq_none_iff]
    constructor
    · intro h
      refine ⟨htext.mp (by simpa using hany), fun field => (hvalue field).mp (h field ?_)⟩
      cases field <;> simp
    · exact fun h field _ => (hvalue field).mpr (h.value field)

theorem mapText?_eq_none_iff {e : Edit Text} : e.mapText? charset.encode = none ↔
    e.text?.any fun t => (charset.encode t).isNone := by
  cases e with
  | full t | insert start t | replace start length t =>
    cases henc : charset.encode t <;> simp [mapText?, text?, henc]
  | delete | cut | paste => simp [mapText?, text?]

/-- The fields of an edit with its text in the charset hold the numbers of the edit. -/
theorem mem_fields_iff {e : Edit Text} {e' : Edit Bytes} (h : e.mapText? charset.encode = some e')
    {field : Field} {value : Nat} :
    (field, value) ∈ e'.fields ↔ e.value? charset field = some value := by
  cases e with
  | full t | insert start t | replace start length t =>
    obtain ⟨bytes, henc, he⟩ := Option.bind_eq_some_iff.mp h
    obtain rfl := Option.some.inj he
    cases field <;> simp [value?, text?, henc, eq_comm]
  | delete | cut | paste =>
    obtain rfl := Option.some.inj h
    cases field <;> simp [value?, text?, eq_comm]

/-- Observing the fields of an edit fails with the first number that is too large, if there is one. -/
theorem fault?_eq_findSome? {e : Edit Text} {e' : Edit Bytes}
    (h : e.mapText? charset.encode = some e') :
    e.fault? charset index = (e'.textLength ++ e'.operands).findSome? fun f =>
      if 1 <<< 31 ≤ f.2 then some (.fieldOverflow f.1 f.2) else none := by
  have htext : ¬ (e.text?.any fun t => (charset.encode t).isNone) = true := by
    rw [← mapText?_eq_none_iff, h]
    simp
  rw [fault?, if_neg htext]
  cases e with
  | full t | insert start t | replace start length t =>
    obtain ⟨bytes, henc, he⟩ := Option.bind_eq_some_iff.mp h
    obtain rfl := Option.some.inj he
    simp [value?, text?, henc, textLength, operands, List.findSome?_cons]
  | delete | cut | paste =>
    obtain rfl := Option.some.inj h
    simp [value?, text?, textLength, operands, List.findSome?_cons]

end Edit

/-- The first fault of a patch. -/
def Patch.fault? (charset : Charset) (patch : Patch) : Option EncodeError :=
  patch.zipIdx.findSome? fun p => p.1.fault? charset p.2

/-- The largest number in a field, zero if there is none. -/
def Patch.largest (charset : Charset) (patch : Patch) (field : Field) : Nat :=
  (patch.filterMap fun e => e.value? charset field).foldr max 0

namespace Widths

variable {w : Widths}

theorem foldlM_observe_eq_error_iff {fields : List (Field × Nat)} {err : EncodeError} :
    fields.foldlM (fun w f => w.observe f.1 f.2) w = .error err ↔
      (fields.findSome? fun f =>
        if 1 <<< 31 ≤ f.2 then some (EncodeError.fieldOverflow f.1 f.2) else none) = some err := by
  induction fields generalizing w with
  | nil => exact ⟨nofun, nofun⟩
  | cons f fields ih =>
    have hceiling : maxFieldValue < f.2 ↔ 1 <<< 31 ≤ f.2 := Iff.rfl
    rw [List.foldlM_cons, observe, List.findSome?_cons]
    by_cases hlarge : 1 <<< 31 ≤ f.2
    · rw [if_pos (hceiling.mpr hlarge), if_pos hlarge]
      exact ⟨fun h => congrArg some (Except.error.inj h), fun h => congrArg _ (Option.some.inj h)⟩
    · rw [if_neg (hlarge ∘ hceiling.mp), if_neg hlarge]
      exact ih

end Widths

namespace Body

variable {w : Widths} {es : List (Edit Bytes)}

/-- Preparing fails with the first fault, if there is one. -/
theorem prepareFrom_eq_error_iff {err : EncodeError} :
    prepareFrom charset index w patch = .error err ↔
      ((patch.zipIdx index).findSome? fun p => p.1.fault? charset p.2) = some err := by
  induction patch generalizing index w with
  | nil => exact ⟨nofun, nofun⟩
  | cons e patch ih =>
    rw [prepareFrom, List.zipIdx_cons, List.findSome?_cons]
    cases henc : e.mapText? charset.encode with
    | none =>
      have hfault : e.fault? charset index = some (.unencodableText index charset) := by
        rw [Edit.fault?, if_pos (Edit.mapText?_eq_none_iff.mp henc)]
      rw [hfault]
      exact ⟨fun h => congrArg some (Except.error.inj h), fun h => congrArg _ (Option.some.inj h)⟩
    | some e' =>
      have hfault : e.fault? charset index = _ := Edit.fault?_eq_findSome? henc
      dsimp only
      cases hobserve : observe w e' with
      | error err' =>
        rw [hfault, Widths.foldlM_observe_eq_error_iff.mp hobserve]
        exact ⟨fun h => congrArg some (Except.error.inj h), fun h => congrArg _ (Option.some.inj h)⟩
      | ok w' =>
        have hnone : e.fault? charset index = none := by
          rw [hfault, Option.eq_none_iff_forall_ne_some]
          intro err' herr
          cases (Widths.foldlM_observe_eq_error_iff.mpr herr).symm.trans hobserve
        rw [hnone]
        change (prepareFrom charset (index + 1) w' patch >>= fun p => pure (p.1, e' :: p.2)) = _ ↔ _
        refine Iff.trans bind_eq_error (Iff.trans (or_iff_left ?_) ih)
        rintro ⟨pair, -, hend⟩
        cases hend

/-- A patch is prepared exactly if none of its edits is at fault. -/
theorem exists_prepare_iff :
    (∃ w es, prepare charset patch = .ok (w, es)) ↔ ∀ e ∈ patch, e.IsEncodable charset := by
  have hfault : patch.fault? charset = none ↔ ∀ e ∈ patch, e.IsEncodable charset := by
    rw [Patch.fault?, List.findSome?_eq_none_iff]
    constructor
    · intro h e he
      obtain ⟨i, hi, rfl⟩ := List.getElem_of_mem he
      exact Edit.fault?_eq_none_iff.mp (h (patch[i], i) (List.mk_mem_zipIdx_iff_getElem?.mpr
        (List.getElem?_eq_getElem hi)))
    · exact fun h p hp => Edit.fault?_eq_none_iff.mpr (h p.1 (List.fst_mem_of_mem_zipIdx hp))
  rw [← hfault, Option.eq_none_iff_forall_ne_some]
  cases hprepare : prepare charset patch with
  | error err =>
    refine iff_of_false (by simp) fun h => h err (prepareFrom_eq_error_iff.mp hprepare)
  | ok pair =>
    refine iff_of_true ⟨pair.1, pair.2, rfl⟩ fun err herr => ?_
    cases (prepareFrom_eq_error_iff.mpr herr).symm.trans hprepare

/-! ## Widths -/

theorem bitCount_mono {m n : Nat} (h : m ≤ n) : bitCount m ≤ bitCount n :=
  bitCount_le_of_lt (Nat.lt_of_le_of_lt h (lt_shiftLeft_bitCount n))

theorem le_largest {e : Edit Text} (he : e ∈ patch) {field : Field} {value : Nat}
    (h : e.value? charset field = some value) : value ≤ patch.largest charset field :=
  List.le_max_of_le' 0 (List.mem_filterMap.mpr ⟨e, he, h⟩) (Nat.le_refl value)

/-- The largest number of a field is zero or that of an edit. -/
theorem largest_cases (charset : Charset) (patch : Patch) (field : Field) :
    patch.largest charset field = 0 ∨
      ∃ e ∈ patch, e.value? charset field = some (patch.largest charset field) := by
  by_cases hnone : (patch.filterMap fun e => e.value? charset field) = []
  · left
    rw [Patch.largest, hnone, List.foldr_nil]
  · right
    exact List.mem_filterMap.mp (List.maximum_mem (List.foldr_max_of_ne_nil hnone).symm)

theorem exists_of_mem_right {α β : Type} {R : α → β → Prop} {xs : List α} {ys : List β}
    (h : List.Forall₂ R xs ys) {y : β} (hy : y ∈ ys) : ∃ x ∈ xs, R x y := by
  induction h with
  | nil => cases hy
  | @cons x y' xs ys hxy hrest ih =>
    rcases List.mem_cons.mp hy with rfl | hy
    · exact ⟨x, List.mem_cons_self .., hxy⟩
    · obtain ⟨x', hx', hxy'⟩ := ih hy
      exact ⟨x', List.mem_cons_of_mem _ hx', hxy'⟩

/-- Every number of an edit fits. -/
theorem fits_of_prepare (h : prepare charset patch = .ok (w, es)) {e : Edit Text} (he : e ∈ patch)
    {field : Field} {value : Nat} (hvalue : e.value? charset field = some value) :
    w.fits field value := by
  obtain ⟨-, -, hfits, henc⟩ := prepareFrom_spec h
  obtain ⟨e', he', hform⟩ := exists_of_mem_right henc.flip he
  exact hfits e' he' (field, value) ((Edit.mem_fields_iff hform).mpr hvalue)

/-- Every width is what the largest number of the field takes. -/
theorem get_of_prepare (h : prepare charset patch = .ok (w, es)) (field : Field) :
    w.get field = bitCount (patch.largest charset field) := by
  obtain ⟨-, -, -, henc⟩ := prepareFrom_spec h
  let needed : Widths := ⟨bitCount (patch.largest charset .start),
    bitCount (patch.largest charset .length), bitCount (patch.largest charset .block),
    bitCount (patch.largest charset .textLength)⟩
  have hneeded (field : Field) : needed.get field = bitCount (patch.largest charset field) := by
    cases field <;> rfl
  have hcovered : w.Covered needed := by
    refine prepareFrom_least h (fun field => by cases field <;> exact Nat.zero_le _) ?_
    intro e' he' f hf
    obtain ⟨e, he, hform⟩ := exists_of_mem_right henc he'
    rw [Widths.fits, decide_eq_true_eq, hneeded]
    exact bitCount_mono (le_largest he ((Edit.mem_fields_iff hform).mp hf))
  refine Nat.le_antisymm (hneeded field ▸ hcovered field) ?_
  rcases largest_cases charset patch field with hzero | ⟨e, he, hvalue⟩
  · rw [hzero]
    exact Nat.zero_le _
  · exact of_decide_eq_true (fits_of_prepare h he hvalue)

/-! ## Outcomes -/

/-- Three bytes of header, and then the edits one after the other, the last byte filled up with zeros. -/
structure IsLayout (w : Widths) (es : List (Edit Bytes)) (body : Bytes) : Prop where
  header : Bits.ofBytes (body.take 3) = w.bits
  edits : Bits.ofBytes (body.drop 3) = bitsFrom w 24 es

theorem isLayout_of_bits {body : Bytes} (h : Bits.ofBytes body = w.bits ++ bitsFrom w w.bits.length es) :
    IsLayout w es body := by
  have hlength : w.bits.length = 3 * 8 := by simp [Widths.bits, Action.bits, Widths.widthBits]
  constructor
  · rw [Bits.ofBytes_take, h, ← hlength, List.take_left]
  · rw [Bits.ofBytes_drop, h, ← hlength, List.drop_left, hlength]

/-- Preparing is all that can fail: what is prepared is written. -/
theorem encode_cases (charset : Charset) (patch : Patch) :
    (∃ err, prepare charset patch = .error err ∧ encode charset patch = .error err) ∨
      ∃ w es body, prepare charset patch = .ok (w, es) ∧ encode charset patch = .ok body ∧
        IsLayout w es body := by
  cases hprepare : prepare charset patch with
  | error err => exact .inl ⟨err, rfl, by rw [encode, hprepare]; rfl⟩
  | ok pair =>
    obtain ⟨body, hencode, hbits⟩ := encode_spec hprepare
    exact .inr ⟨pair.1, pair.2, body, rfl, hencode, isLayout_of_bits hbits⟩

/-- A patch is written exactly if in every edit the text has a form in the charset and all numbers are
below the ceiling. Then each width is the number of bits of the largest number in its field, every number
fits into its width, and the body is the header and then the edits; otherwise the error is the first
fault. -/
theorem encode_outcome (charset : Charset) (patch : Patch) :
    ((∃ body, encode charset patch = .ok body) ↔ ∀ e ∈ patch, e.IsEncodable charset) ∧
    (∀ body, encode charset patch = .ok body → ∃ w es, widths charset patch = .ok w ∧
      (∀ field, w.get field = bitCount (patch.largest charset field)) ∧
      (∀ e ∈ patch, ∀ field value, e.value? charset field = some value → value < 1 <<< w.get field) ∧
      List.Forall₂ (fun e e' => e.mapText? charset.encode = some e') patch es ∧ IsLayout w es body) ∧
    (∀ err, encode charset patch = .error err ↔ patch.fault? charset = some err) := by
  rw [← exists_prepare_iff]
  have hfault (err : EncodeError) :
      prepare charset patch = .error err ↔ patch.fault? charset = some err := prepareFrom_eq_error_iff
  rcases encode_cases charset patch with ⟨err, hprepare, hencode⟩ | ⟨w, es, body, hprepare, hencode, hbody⟩
  · simp only [hprepare, hencode, Except.error.injEq] at hfault ⊢
    exact ⟨by simp, by simp, hfault⟩
  · simp only [hprepare] at hfault
    refine ⟨iff_of_true ⟨body, hencode⟩ ⟨w, es, hprepare⟩, fun body' hbody' => ?_, fun err => ?_⟩
    · obtain rfl := Except.ok.inj (hencode.symm.trans hbody')
      obtain ⟨-, -, -, henc⟩ := prepareFrom_spec hprepare
      refine ⟨w, es, by rw [widths, hprepare]; rfl, get_of_prepare hprepare, ?_, henc, hbody⟩
      exact fun e he field value hvalue => Widths.lt_of_fits (fits_of_prepare hprepare he hvalue)
    · rw [hencode, ← hfault err]
      exact iff_of_false (fun h => by cases h) (fun h => by cases h)

/-- Of two numbers and a text that are at fault the start comes first. -/
example : encode .utf8 [.replace 0x80000000 0x80000001 [97], .insert 0 [0xD800]] =
    .error (.fieldOverflow .start 0x80000000) := by rfl

end Body
end EditHistory
