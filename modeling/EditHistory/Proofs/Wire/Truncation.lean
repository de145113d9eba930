import EditHistory.Proofs.Wire.Reading

/-! Bodies that are cut off. What is read from the beginning of a body is read from the whole of it, too,
so a body that is cut off is refused, or it gives its first edits, unaltered: the bits that are left over
in front of the cut are never taken for an edit. The last edit is missing in any case, because its last
bits are in the last byte. -/
namespace EditHistory

namespace BitReader

/-- `r` stands where `s` does, in bytes that may end earlier. -/
structure Begins (r s : BitReader) : Prop where
  bytes_prefix : r.bytes.toList <+: s.bytes.toList
  position_eq : r.position = s.position

variable {r s : BitReader}

theorem Begins.size_le (h : r.Begins s) : r.bytes.size ≤ s.bytes.size := by
  simpa using h.bytes_prefix.length_le

theorem Begins.moveTo (h : r.Begins s) (position : Nat) :
    Begins ⟨r.bytes, position⟩ ⟨s.bytes, position⟩ := ⟨h.bytes_prefix, rfl⟩

theorem Begins.remaining_le (h : r.Begins s) : r.remaining ≤ s.remaining := by
  have hsize := h.size_le
  rw [remaining, remaining, h.position_eq]
  omega

theorem Begins.bitAt_eq (h : r.Begins s) {position : Nat} (hin : position < r.bytes.size * 8) :
    bitAt r.bytes position = bitAt s.bytes position := by
  obtain ⟨rest, hrest⟩ := h.bytes_prefix
  have hlt : position / 8 < r.bytes.toList.length := by
    rw [Array.length_toList]
    omega
  have hbyte : r.bytes.getD (position / 8) 0 = s.bytes.getD (position / 8) 0 := by
    rw [Array.getD_eq_getD_getElem?, Array.getD_eq_getD_getElem?, ← Array.getElem?_toList,
      ← Array.getElem?_toList, ← hrest, List.getElem?_append_left hlt]
  rw [bitAt, bitAt, hbyte]

theorem Begins.valueFrom_eq (h : r.Begins s) {position width : Nat}
    (hin : width ≤ r.bytes.size * 8 - position) (acc : Nat) :
    valueFrom r.bytes position acc width = valueFrom s.bytes position acc width := by
  induction width generalizing position acc with
  | zero => rfl
  | succ width ih =>
    rw [valueFrom, valueFrom, h.bitAt_eq (by omega)]
    exact ih (by omega) _

theorem Begins.bytesFrom_eq (h : r.Begins s) {position count : Nat}
    (hin : count * 8 ≤ r.bytes.size * 8 - position) :
    bytesFrom r.bytes position count = bytesFrom s.bytes position count := by
  induction count generalizing position with
  | zero => rfl
  | succ count ih =>
    rw [bytesFrom, bytesFrom, h.valueFrom_eq (by omega), ih (by omega)]

theorem Begins.extract_eq (h : r.Begins s) {start count : Nat} (hin : count ≤ r.bytes.size - start) :
    (r.bytes.extract start (start + count)).toList = (s.bytes.extract start (start + count)).toList := by
  obtain ⟨rest, hrest⟩ := h.bytes_prefix
  rw [Array.toList_extract, Array.toList_extract, List.extract_eq_take_drop,
    List.extract_eq_take_drop, Nat.add_sub_cancel_left, ← hrest]
  by_cases hstart : start ≤ r.bytes.toList.length
  · have hcount : count ≤ (r.bytes.toList.drop start).length := by
      rw [List.length_drop, Array.length_toList]
      exact hin
    rw [List.drop_append_of_le_length hstart, List.take_append_of_le_length hcount]
  · obtain rfl : count = 0 := by
      rw [Array.length_toList] at hstart
      omega
    rw [List.take_zero, List.take_zero]

theorem Begins.readBits (h : r.Begins s) {width value : Nat} {r' : BitReader}
    (hread : r.readBits width = .ok (value, r')) :
    ∃ s', s.readBits width = .ok (value, s') ∧ r'.Begins s' := by
  have hmore := h.remaining_le
  rw [BitReader.readBits] at hread
  split at hread
  · cases hread
  · rename_i hwidth
    split at hread
    · cases hread
    · rename_i hleft
      obtain ⟨rfl, rfl⟩ := Prod.mk.inj (Except.ok.inj hread)
      refine ⟨⟨s.bytes, r.position + width⟩, ?_, h.moveTo _⟩
      rw [BitReader.readBits, if_neg hwidth, if_neg (by omega), ← h.position_eq,
        h.valueFrom_eq (Nat.le_of_not_lt hleft)]

theorem Begins.readBit (h : r.Begins s) {bit : Bool} {r' : BitReader}
    (hread : r.readBit = .ok (bit, r')) : ∃ s', s.readBit = .ok (bit, s') ∧ r'.Begins s' := by
  obtain ⟨⟨value, after⟩, hvalue, hbit⟩ := bind_eq_ok.mp hread
  obtain ⟨rfl, rfl⟩ := Prod.mk.inj (Except.ok.inj hbit)
  obtain ⟨s', hread', hend⟩ := h.readBits hvalue
  exact ⟨s', bind_eq_ok.mpr ⟨_, hread', rfl⟩, hend⟩

theorem Begins.readBytes (h : r.Begins s) {count : Nat} {bytes : Bytes} {r' : BitReader}
    (hread : r.readBytes count = .ok (bytes, r')) :
    ∃ s', s.readBytes count = .ok (bytes, s') ∧ r'.Begins s' := by
  have hmore := h.remaining_le
  have haligned : s.isAligned = r.isAligned := by rw [isAligned, isAligned, h.position_eq]
  rw [BitReader.readBytes] at hread
  split at hread
  · cases hread
  · rename_i hleft
    obtain ⟨rfl, rfl⟩ := Prod.mk.inj (Except.ok.inj hread)
    refine ⟨⟨s.bytes, r.position + count * 8⟩, ?_, h.moveTo _⟩
    have hbytes : count ≤ r.bytes.size - r.position / 8 := by
      rw [remaining] at hleft
      omega
    rw [BitReader.readBytes, if_neg (by omega), haligned, ← h.position_eq, h.extract_eq hbytes,
      h.bytesFrom_eq (Nat.le_of_not_lt hleft)]

end BitReader

/-- What is read from the beginning of some bytes is read from all of them, too. -/
def Stable {α : Type} (p : Reading α) : Prop :=
  ∀ r s a r', BitReader.Begins r s → p r = .ok (a, r') → ∃ s', p s = .ok (a, s') ∧ r'.Begins s'

namespace Stable

variable {α β : Type} {charset : Charset} {w : Widths} {index : Nat}

theorem pure (a : α) : Stable (Pure.pure a : Reading α) := by
  intro r s a' r' h hread
  obtain ⟨rfl, rfl⟩ := Reading.pure_eq_ok.mp hread
  exact ⟨s, rfl, h⟩

theorem throw (e : DecodeError) : Stable (MonadExcept.throw e : Reading α) := by
  intro r s a r' h hread
  cases hread

theorem bind {p : Reading α} {q : α → Reading β} (hp : Stable p) (hq : ∀ a, Stable (q a)) :
    Stable (p >>= q) := by
  intro r s b r' h hread
  obtain ⟨a, middle, hfirst, hrest⟩ := Reading.bind_eq_ok.mp hread
  obtain ⟨middle', hfirst', hbegins⟩ := hp r s a middle h hfirst
  obtain ⟨s', hrest', hend⟩ := hq a middle middle' b r' hbegins hrest
  exact ⟨s', Reading.bind_eq_ok.mpr ⟨a, middle', hfirst', hrest'⟩, hend⟩

theorem within (context : Context) {read : BitReader → Except BitError (α × BitReader)}
    (h : ∀ {r s a r'}, BitReader.Begins r s → read r = .ok (a, r') →
      ∃ s', read s = .ok (a, s') ∧ r'.Begins s') : Stable (Reading.within context read) := by
  intro r s a r' hbegins hread
  obtain ⟨s', hread', hend⟩ := h hbegins (mapError_eq_ok.mp hread)
  exact ⟨s', mapError_eq_ok.mpr hread', hend⟩

theorem readBits (context : Context) (width : Nat) :
    Stable (Reading.within context (·.readBits width)) :=
  within context fun h hread => h.readBits hread

theorem readBytes (context : Context) (count : Nat) :
    Stable (Reading.within context (·.readBytes count)) :=
  within context fun h hread => h.readBytes hread

theorem skipToByte : Stable Reading.skipToByte := by
  intro r s u r' h hread
  obtain ⟨-, rfl⟩ := Prod.mk.inj (Except.ok.inj hread)
  refine ⟨s.skipToByte, rfl, h.bytes_prefix, ?_⟩
  rw [BitReader.skipToByte, BitReader.skipToByte, h.position_eq]

theorem readText (charset : Charset) (w : Widths) (index : Nat) :
    Stable (Body.readText charset w index) := by
  refine (readBits _ _).bind fun length => (readBytes _ _).bind fun bytes => ?_
  split
  · exact pure _
  · exact throw _

theorem readOperands (charset : Charset) (w : Widths) (index : Nat) (action : Action) :
    Stable (Body.readOperands charset w index action) := by
  cases action with
  | header => exact pure _
  | full => exact (readText _ _ _).bind fun _ => pure _
  | insert => exact (readBits _ _).bind fun _ => (readText _ _ _).bind fun _ => pure _
  | delete =>
    exact (readBits _ _).bind fun _ => (readBits _ _).bind fun _ => skipToByte.bind fun _ => pure _
  | replace =>
    exact (readBits _ _).bind fun _ => (readBits _ _).bind fun _ =>
      (readText _ _ _).bind fun _ => pure _
  | cut =>
    exact (readBits _ _).bind fun _ => (readBits _ _).bind fun _ => (readBits _ _).bind fun _ =>
      skipToByte.bind fun _ => pure _
  | paste =>
    exact (readBits _ _).bind fun _ => (readBits _ _).bind fun _ => skipToByte.bind fun _ => pure _

theorem readCoded (charset : Charset) (w : Widths) (index position code : Nat) :
    Stable (Body.readCoded charset w index position code) := by
  unfold Body.readCoded
  split
  · exact throw _
  · refine (readOperands _ _ _ _).bind fun e => ?_
    split
    · exact throw _
    · exact pure _

theorem readEdit (charset : Charset) (w : Widths) (index : Nat) :
    Stable (Body.readEdit charset w index) := by
  intro r s e r' h hread
  have hstable := (readBits .action Action.bits).bind
    fun code => readCoded charset w index r.position code
  obtain ⟨s', hread', hend⟩ := hstable r s e r' h hread
  -- the position is part of an error only
  rw [h.position_eq] at hread'
  exact ⟨s', hread', hend⟩

theorem readWidths : Stable Widths.read := by
  refine (readBits _ _).bind fun marker => ?_
  have hfields : Stable (do
      let start ← Reading.within .header (·.readBits Widths.widthBits)
      let length ← Reading.within .header (·.readBits Widths.widthBits)
      let block ← Reading.within .header (·.readBits Widths.widthBits)
      let text ← Reading.within .header (·.readBits Widths.widthBits)
      let _ ← Reading.within .header (·.readBit)
      return (⟨start, length, block, text⟩ : Widths)) :=
    (readBits _ _).bind fun _ => (readBits _ _).bind fun _ => (readBits _ _).bind fun _ =>
      (readBits _ _).bind fun _ => (within _ fun h hread => h.readBit hread).bind fun _ => pure _
  split
  · exact (throw _).bind fun _ => hfields
  · exact hfields

end Stable

namespace Body

variable {charset : Charset} {w : Widths} {r s : BitReader} {read : List Bool}

/-- In front of the bits of some edits that are cut off by a byte or more, there is an error, or the first
ones of them are read. -/
theorem readEdits_of_begins (hw : w.Narrow) {patch : Patch} {es : List (Edit Bytes)}
    (henc : List.Forall₂ (fun e e' => e.mapText? charset.encode = some e') patch es)
    (hfits : ∀ e ∈ es, e.Fits w) (index : Nat) (hs : s.Stands read (bitsFrom w read.length es))
    (h : r.Begins s) (hinside : r.Inside) (hless : r.bytes.size < s.bytes.size) :
    (∃ err, readEdits charset w index r = .error err) ∨
      ∃ k < patch.length, readEdits charset w index r = .ok (patch.take k) := by
  induction henc generalizing read r s index with
  | nil =>
    -- less than a byte is left of the whole, so there is nowhere to cut
    have hlen := congrArg List.length hs.bits_eq
    rw [Bits.length_ofBytes, Array.length_toList, List.length_append, bitsFrom, Bits.padding,
      List.length_replicate] at hlen
    have hposition := hs.position_eq
    rw [BitReader.Inside, h.position_eq] at hinside
    omega
  | @cons e e' patch es he hrest ih =>
    obtain ⟨hfit, hfits⟩ := List.forall_mem_cons.mp hfits
    by_cases hend : atEnd r
    · exact .inr ⟨0, Nat.succ_pos _, by rw [readEdits, dif_pos hend, List.take_zero]⟩
    cases hread : readEdit charset w index r with
    | error err => exact .inl ⟨err, readEdits_of_error hend hread⟩
    | ok pair =>
      obtain ⟨e₁, r₁⟩ := pair
      obtain ⟨s₁, hwhole, hbegins⟩ := Stable.readEdit charset w index r s e₁ r₁ h hread
      obtain ⟨s₂, hwritten, hstands⟩ := Reads.readEdit hw he hfit index s _ hs
      obtain ⟨rfl, rfl⟩ := Prod.mk.inj (Except.ok.inj (hwhole.symm.trans hwritten))
      obtain ⟨_, -, -, hsteps⟩ := steps_readEdit hread
      obtain ⟨_, -, -, hsteps'⟩ := steps_readEdit hwhole
      rw [← List.length_append] at hstands
      have hless' : r₁.bytes.size < s₁.bytes.size := by
        rwa [hsteps.bytes_eq, hsteps'.bytes_eq]
      rw [readEdits_of_ok hend hread]
      rcases ih hfits (index + 1) hstands hbegins (hsteps.inside hinside) hless' with
        ⟨err, herr⟩ | ⟨k, hk, hok⟩
      · exact .inl ⟨err, by rw [herr]; rfl⟩
      · exact .inr ⟨k + 1, Nat.succ_lt_succ hk, by rw [hok]; rfl⟩

/-- A body that is cut off gives an error or, at the same widths, the first edits and not all of them. -/
theorem decode_take {patch : Patch} {body : Bytes} (h : encode charset patch = .ok body) {n : Nat}
    (hn : n < body.length) :
    (∃ err, decode charset (body.take n) = .error err) ∨
      ∃ w, decode charset body = .ok (w, patch) ∧
        ∃ k < patch.length, decode charset (body.take n) = .ok (w, patch.take k) := by
  obtain ⟨w, es, hprepare, hbits⟩ := exists_prepare_of_encode h
  obtain ⟨-, hnarrow, hfits, henc⟩ := prepareFrom_spec hprepare
  have hw := hnarrow Widths.narrow_zero
  by_cases hempty : (body.take n).isEmpty
  · exact .inl ⟨.empty, by rw [decode, if_pos hempty]; rfl⟩
  cases hheader : Widths.read (BitReader.ofBytes (body.take n)) with
  | error err => exact .inl (decode_of_header_error hheader)
  | ok pair =>
    obtain ⟨w₁, r⟩ := pair
    have hstart := BitReader.stands_ofBytes body
    rw [hbits] at hstart
    obtain ⟨s, hwhole, hstands⟩ := Reads.readWidths hw _ _ hstart
    have hbegins : (BitReader.ofBytes (body.take n)).Begins (BitReader.ofBytes body) :=
      ⟨List.take_prefix n body, rfl⟩
    obtain ⟨s₁, hwhole', hrest⟩ := Stable.readWidths _ _ _ _ hbegins hheader
    obtain ⟨rfl, rfl⟩ := Prod.mk.inj (Except.ok.inj (hwhole'.symm.trans hwhole))
    obtain ⟨-, hsteps⟩ := steps_readWidths hheader
    obtain ⟨-, hsteps'⟩ := steps_readWidths hwhole'
    have hless : r.bytes.size < s₁.bytes.size := by
      rw [hsteps.bytes_eq, hsteps'.bytes_eq]
      simp only [BitReader.ofBytes, List.size_toArray, List.length_take]
      omega
    have hinside := hsteps.inside (BitReader.inside_ofBytes (body.take n))
    rw [decode_of_header hempty hheader]
    rcases readEdits_of_begins hw henc hfits 0 hstands hrest hinside hless with
      ⟨err, herr⟩ | ⟨k, hk, hok⟩
    · exact .inl ⟨err, by rw [herr]; rfl⟩
    · exact .inr ⟨w₁, decode_spec hprepare hbits, k, hk, by rw [hok]; rfl⟩

/-- Three edits of three bits each, without the byte that holds the last bit: two bits are left over, which
are the beginning of the third edit. -/
theorem decode_take_empty_texts :
    encode .utf8 [.full [], .full [], .full []] = .ok [0, 0, 0, 36, 128] ∧
    4 < [0, 0, 0, 36, 128].length ∧
    ((∃ err, decode .utf8 ([0, 0, 0, 36, 128].take 4) = .error err) ∨
      ∃ w, decode .utf8 [0, 0, 0, 36, 128] = .ok (w, [.full [], .full [], .full []]) ∧
        ∃ k < 3,
          decode .utf8 ([0, 0, 0, 36, 128].take 4) = .ok (w, [.full [], .full [], .full []].take k)) ∧
    decode .utf8 ([0, 0, 0, 36, 128].take 4) = .ok (Widths.zero, [.full [], .full []]) :=
  have hencode : encode .utf8 [.full [], .full [], .full []] = .ok [0, 0, 0, 36, 128] := by
    decide +kernel
  have hcut : 4 < [0, 0, 0, 36, 128].length := by decide
  ⟨hencode, hcut, decode_take hencode hcut, by decide +kernel⟩

end Body
end EditHistory
