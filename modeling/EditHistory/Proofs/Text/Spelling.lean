import EditHistory.Proofs.Text.Surrogates
import EditHistory.Proofs.Text.Utf8

/-! Charsets are bijections between the texts they hold and the bytes they accept. What is accepted
spells every value in the one way there is: a value in more bytes than it takes, a surrogate or a value
beyond the last character makes all the bytes around it unreadable. -/
namespace EditHistory
namespace Utf8

/-- The number of bytes that a value is put into. -/
inductive Width where
  | one
  | two
  | three
  | four

namespace Width

/-- The least value that takes that many bytes. -/
def least : Width → Nat
  | one => 0
  | two => 0x80
  | three => 0x800
  | four => 0x10000

/-- The values below it fit into that many bytes. -/
def capacity : Width → Nat
  | one => 0x80
  | two => 0x800
  | three => 0x10000
  | four => 0x200000

/-- The lead of a value. -/
def lead (value : Nat) : Width → Nat
  | one => value
  | two => 0xC0 + value / 0x40
  | three => 0xE0 + value / 0x1000
  | four => 0xF0 + value / 0x40000

/-- The byte for the last six bits of a value. -/
def tail (value : Nat) : UInt8 := (0x80 + value % 0x40).toUInt8

/-- The tails behind the lead of a value. -/
def tails (value : Nat) : Width → Bytes
  | one => []
  | two => [tail value]
  | three => [tail (value / 0x40), tail value]
  | four => [tail (value / 0x1000), tail (value / 0x40), tail value]

end Width

/-- A value in a number of bytes, whether or not that is how it is written. -/
def form (value : Nat) (width : Width) : Bytes := (width.lead value).toUInt8 :: width.tails value

/-- A value in a form that it does not have: fewer bytes would do, or it is a surrogate, or no character
is that large. -/
def Misspells (value : Nat) (width : Width) : Prop :=
  value < width.capacity ∧
    (value < width.least ∨ (0xD800 ≤ value ∧ value < 0xE000) ∨ 0x110000 ≤ value)

variable {value other : Nat} {width width' : Width}

/-! ## Forms are told apart -/

namespace Width

theorem toNat_tail (value : Nat) : (tail value).toNat = 0x80 + value % 0x40 :=
  toNat_toUInt8 _ (by omega)

theorem tail_inj (h : tail value = tail other) : value % 0x40 = other % 0x40 := by
  have hbytes := congrArg UInt8.toNat h
  rw [toNat_tail, toNat_tail] at hbytes
  omega

theorem isTail_of_mem_tails {b : UInt8} (h : b ∈ width.tails value) : isTail b := by
  have htail (value : Nat) : isTail (tail value) := by
    rw [isTail_iff, toNat_tail]
    omega
  cases width with
  | one => cases h
  | two =>
    obtain rfl := List.mem_singleton.mp h
    exact htail _
  | three =>
    simp only [tails, List.mem_cons, List.not_mem_nil, or_false] at h
    rcases h with rfl | rfl <;> exact htail _
  | four =>
    simp only [tails, List.mem_cons, List.not_mem_nil, or_false] at h
    rcases h with rfl | rfl | rfl <;> exact htail _

theorem lead_lt (h : value < width.capacity) : width.lead value < 0xF8 := by
  cases width <;> simp only [capacity, lead] at * <;> omega

/-- A lead is no tail. -/
theorem not_isTail_lead (h : value < width.capacity) : ¬ isTail (width.lead value).toUInt8 := by
  rw [isTail_iff, toNat_toUInt8 _ (Nat.lt_trans (lead_lt h) (by decide))]
  cases width <;> simp only [capacity, lead] at * <;> omega

/-- The lead tells how many bytes there are. -/
theorem eq_of_lead_eq (h : value < width.capacity) (h' : other < width'.capacity)
    (hlead : width.lead value = width'.lead other) : width = width' := by
  cases width <;> cases width' <;> simp only [capacity, lead, reduceCtorEq] at * <;> omega

theorem value_eq (hlead : width.lead value = width.lead other)
    (htails : width.tails value = width.tails other) : value = other := by
  cases width with
  | one => exact hlead
  | two =>
    have hlast := tail_inj (List.singleton_inj.mp htails)
    simp only [lead] at hlead
    omega
  | three =>
    simp only [tails, List.cons.injEq, and_true] at htails
    have hmiddle := tail_inj htails.1
    have hlast := tail_inj htails.2
    simp only [lead] at hlead
    omega
  | four =>
    simp only [tails, List.cons.injEq, and_true] at htails
    have hfirst := tail_inj htails.1
    have hmiddle := tail_inj htails.2.1
    have hlast := tail_inj htails.2.2
    simp only [lead] at hlead
    omega

end Width

/-- From the beginning of some bytes one value at most can be read. -/
theorem form_append_inj (h : value < width.capacity) (h' : other < width'.capacity) {s t : Bytes}
    (heq : form value width ++ s = form other width' ++ t) : value = other ∧ width = width' := by
  obtain ⟨hhead, htails⟩ := List.cons.inj heq
  have hlead := congrArg UInt8.toNat hhead
  rw [toNat_toUInt8 _ (Nat.lt_trans (Width.lead_lt h) (by decide)),
    toNat_toUInt8 _ (Nat.lt_trans (Width.lead_lt h') (by decide))] at hlead
  obtain rfl := Width.eq_of_lead_eq h h' hlead
  have hlength : (width.tails value).length = (width.tails other).length := by cases width <;> rfl
  exact ⟨Width.value_eq hlead (List.append_inj_left htails hlength), rfl⟩

/-- A scalar value is written in as few bytes as it takes. -/
theorem exists_form (h : Text.IsScalar value) :
    ∃ width : Width, ofScalar value = form value width ∧ width.least ≤ value ∧
      value < width.capacity := by
  rw [Text.IsScalar] at h
  rw [ofScalar]
  split
  · exact ⟨.one, rfl, Nat.zero_le _, ‹_›⟩
  · split
    · exact ⟨.two, rfl, Nat.le_of_not_lt ‹_›, ‹_›⟩
    · split
      · exact ⟨.three, rfl, Nat.le_of_not_lt ‹_›, ‹_›⟩
      · refine ⟨.four, rfl, Nat.le_of_not_lt ‹_›, ?_⟩
        simp only [Width.capacity]
        omega

/-- A form among the bytes of scalar values is the form of one of them. -/
theorem mem_of_form_append {values : List Nat} (hvalues : ∀ v ∈ values, Text.IsScalar v)
    (hfits : value < width.capacity) {before after : Bytes}
    (h : before ++ (form value width ++ after) = values.flatMap ofScalar) :
    value ∈ values ∧ width.least ≤ value := by
  induction values generalizing before with
  | nil => simp [form] at h
  | cons v values ih =>
    obtain ⟨hv, hrest⟩ := List.forall_mem_cons.mp hvalues
    rw [List.flatMap_cons] at h
    have hbehind (before' : Bytes) (h : before' ++ (form value width ++ after) = values.flatMap ofScalar) :
        value ∈ v :: values ∧ width.least ≤ value :=
      (ih hrest h).imp_left (List.mem_cons_of_mem v)
    rcases List.append_eq_append_iff.mp h with ⟨inside, hsplit, htail⟩ | ⟨before', -, htail⟩
    · obtain ⟨width', hform, hleast, hcapacity⟩ := exists_form hv
      cases before with
      | nil =>
        rw [← (show ofScalar v = inside from hsplit), hform] at htail
        obtain ⟨rfl, rfl⟩ := form_append_inj hfits hcapacity htail
        exact ⟨List.mem_cons_self, hleast⟩
      | cons b before =>
        cases inside with
        | nil => exact hbehind [] htail
        | cons x inside =>
          -- the lead would stand among the tails of another value
          have hx : x ∈ width'.tails v := by
            rw [(List.cons.inj (hform.symm.trans hsplit)).2]
            simp
          have hlead : (width.lead value).toUInt8 = x := (List.cons.inj htail).1
          exact absurd (hlead ▸ Width.isTail_of_mem_tails hx) (Width.not_isTail_lead hfits)
    · exact hbehind before' htail.symm

/-- Where a value is in a form that it does not have, nothing is read. -/
theorem not_decode_of_misspells (h : Misspells value width) (before after : Bytes) (t : Text) :
    decode (before ++ (form value width ++ after)) ≠ .ok t := by
  intro hdecode
  obtain ⟨values, hvalues, -, hbytes⟩ := spells_of_decodeFrom hdecode
  obtain ⟨hfits, hwrong⟩ := h
  obtain ⟨hmem, hleast⟩ := mem_of_form_append hvalues hfits hbytes
  have hscalar := hvalues value hmem
  rw [Text.IsScalar] at hscalar
  omega

end Utf8

namespace Charset

/-- Bytes that a charset does not allow: a value in a form that it does not have, or half a unit. -/
inductive Misspelled : Charset → Bytes → Prop
  | utf8 {value : Nat} {width : Utf8.Width} (before after : Bytes) (h : Utf8.Misspells value width) :
      Misspelled .utf8 (before ++ (Utf8.form value width ++ after))
  | utf16le {bytes : Bytes} (h : bytes.length % 2 = 1) : Misspelled .utf16le bytes
  | utf16be {bytes : Bytes} (h : bytes.length % 2 = 1) : Misspelled .utf16be bytes

variable {charset : Charset} {bytes : Bytes}

theorem not_decode_of_misspelled (h : charset.Misspelled bytes) (t : Text) :
    charset.decode bytes ≠ .ok t := by
  cases h with
  | utf8 before after h =>
    exact fun hdecode => Utf8.not_decode_of_misspells h before after t (mapError_eq_ok.mp hdecode)
  | utf16le h =>
    intro hdecode
    rw [decode, if_neg (by omega)] at hdecode
    cases hdecode
  | utf16be h =>
    intro hdecode
    rw [decode, if_neg (by omega)] at hdecode
    cases hdecode

/-- A charset holds all texts, UTF-8 those without unpaired surrogates, and is a bijection between the texts
it holds and the bytes it accepts. What is misspelled is not accepted. -/
theorem encode_bijective (charset : Charset) :
    (∀ t, charset.encode t = none ↔ charset = .utf8 ∧ ∃ i, t.isUnpairedAt i) ∧
    (∀ t bytes, charset.encode t = some bytes ↔ charset.decode bytes = .ok t) ∧
    ∀ bytes, charset.Misspelled bytes → ∃ fault, charset.decode bytes = .error fault := by
  refine ⟨fun t => ?_, fun t bytes => ⟨decode_encode, encode_decode⟩, fun bytes h => ?_⟩
  · rw [encode_eq_none_iff, Holds, ← Text.hasUnpaired_iff]
    simp
  · cases hdecode : charset.decode bytes with
    | ok t => exact absurd hdecode (not_decode_of_misspelled h t)
    | error fault => exact ⟨fault, rfl⟩

/-- A slash in two bytes, between two letters, is no text. -/
theorem encode_bijective_overlong :
    Misspelled .utf8 [0x61, 0xC0, 0xAF, 0x62] ∧
      ∃ fault, Charset.decode .utf8 [0x61, 0xC0, 0xAF, 0x62] = .error fault :=
  have h : Misspelled .utf8 ([0x61] ++ (Utf8.form 0x2F .two ++ [0x62])) :=
    .utf8 [0x61] [0x62] ⟨by decide, .inl (by decide)⟩
  ⟨h, (encode_bijective .utf8).2.2 _ h⟩

end Charset
end EditHistory
