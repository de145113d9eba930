import EditHistory.Delta
import EditHistory.Proofs.Transport.Deflate
import EditHistory.Proofs.Wire.Between

/-! The way from a text to the next through a payload. A body never starts with the marker of packed
payloads, so with a compressor that gives back what it packed the envelope loses nothing. -/
namespace EditHistory

/-- Unpacking gives back what was packed, at whatever level. -/
def Compressor.IsFaithful [Compressor] : Prop :=
  ∀ level bytes, Compressor.unpack (Compressor.pack level bytes) = .ok bytes

theorem isFaithful_deflate : Compressor.IsFaithful := Deflate.inflate_deflate

/-- A body starts with the action code of headers, which leaves five bits of its first byte. -/
theorem Body.head_lt {w : Widths} {rest : List Bool} {body : Bytes}
    (h : Bits.ofBytes body = w.bits ++ rest) : ∃ b tail, body = b :: tail ∧ b < 0x20 := by
  cases body with
  | nil => simp [Widths.bits] at h
  | cons b tail =>
    refine ⟨b, tail, rfl, UInt8.lt_iff_toNat_lt.mpr (Nat.lt_pow_two_of_testBit (n := 5) _ fun i hi => ?_)⟩
    have hcode : [b.toNat.testBit 7, b.toNat.testBit 6, b.toNat.testBit 5] = [false, false, false] :=
      congrArg (List.take 3) h
    simp only [List.cons.injEq, and_true] at hcode
    obtain ⟨hseven, hsix, hfive⟩ := hcode
    rcases Nat.lt_or_ge i 8 with hlt | hge
    · obtain rfl | rfl | rfl : i = 5 ∨ i = 6 ∨ i = 7 := by omega
      · exact hfive
      · exact hsix
      · exact hseven
    · exact Nat.testBit_lt_two_pow (Nat.lt_of_lt_of_le b.toNat_lt (Nat.pow_le_pow_right (by decide) hge))

theorem Body.head_ne_marker {w : Widths} {rest : List Bool} {body : Bytes}
    (h : Bits.ofBytes body = w.bits ++ rest) : ∃ b tail, body = b :: tail ∧ b ≠ Envelope.marker := by
  obtain ⟨b, tail, rfl, hb⟩ := head_lt h
  refine ⟨b, tail, rfl, ?_⟩
  rintro rfl
  exact absurd hb (by decide)

/-- The marker of packed payloads is read as an action code that no header has. -/
theorem Body.decode_marker (charset : Charset) (tail : Bytes) :
    decode charset (Envelope.marker :: tail) = .error (.invalidMarker 4) := by
  have hstands : (BitReader.ofBytes (Envelope.marker :: tail)).Stands []
      (Bits.ofNat 4 Action.bits ++ (Bits.ofNat 0 5 ++ Bits.ofBytes tail)) :=
    BitReader.stands_ofBytes (Envelope.marker :: tail)
  obtain ⟨r, hread, -⟩ := hstands.readBits (by decide) (by decide)
  have hheader : Widths.read.run (BitReader.ofBytes (Envelope.marker :: tail)) =
      .error (.invalidMarker 4) := by
    show (Reading.within .header (·.readBits Action.bits) _ >>= _) = _
    rw [Reading.within, hread]
    rfl
  rw [decode, hheader]
  rfl

/-- What is read as a body does not start with the marker. -/
theorem Body.head_ne_marker_of_decode {charset : Charset} {body : Bytes} {x : Widths × Patch}
    (h : decode charset body = .ok x) : ∃ b tail, body = b :: tail ∧ b ≠ Envelope.marker := by
  cases body with
  | nil => cases h
  | cons b tail =>
    refine ⟨b, tail, rfl, ?_⟩
    rintro rfl
    rw [decode_marker] at h
    cases h

/-- A patch that can be prepared has a body, which does not start with the marker and is read back as the
patch. -/
theorem Body.exists_body {charset : Charset} {patch : Patch} {w : Widths} {es : List (Edit Bytes)}
    (h : prepare charset patch = .ok (w, es)) : ∃ b tail, encode charset patch = .ok (b :: tail) ∧
      b ≠ Envelope.marker ∧ decode charset (b :: tail) = .ok (w, patch) := by
  obtain ⟨body, hencode, hbits⟩ := encode_spec h
  obtain ⟨b, tail, rfl, hb⟩ := head_ne_marker hbits
  exact ⟨b, tail, hencode, hb, decode_spec h hbits⟩

section Faithful

variable [Compressor]

/-- Does it pay to pack a body? Packing has to be wanted, the body long enough, and the packed body with
its marker shorter. -/
def Envelope.Pays (codec : Codec) (body : Bytes) : Prop :=
  codec.compress = true ∧ minPacked ≤ body.length ∧
    (Compressor.pack codec.level body).length + 1 < body.length

/-- A body is packed where that pays. -/
theorem Envelope.pack?_eq_some_iff {codec : Codec} {body packed : Bytes} :
    pack? codec body = some packed ↔ Pays codec body ∧ packed = Compressor.pack codec.level body := by
  rw [pack?]
  split
  · rename_i hnot
    refine iff_of_false nofun ?_
    rintro ⟨⟨hwanted, hlong, -⟩, -⟩
    simp only [hwanted, Bool.not_true, Bool.false_or, decide_eq_true_eq] at hnot
    omega
  · rename_i hwanted
    simp only [Bool.or_eq_true, Bool.not_eq_true', decide_eq_true_eq, not_or, Bool.not_eq_false,
      Nat.not_lt] at hwanted
    dsimp only
    split
    · rename_i hshorter
      rw [Option.some.injEq, eq_comm]
      exact ⟨fun heq => ⟨⟨hwanted.1, hwanted.2, hshorter⟩, heq⟩, fun h => h.2⟩
    · rename_i hlonger
      exact iff_of_false nofun fun h => hlonger h.1.2.2

theorem Envelope.unpack_of_pack? (hpack : Compressor.IsFaithful) {codec : Codec} {body packed : Bytes}
    (h : pack? codec body = some packed) : unpack packed = .ok body := by
  obtain ⟨-, rfl⟩ := pack?_eq_some_iff.mp h
  rw [unpack, hpack]
  rfl

/-- A body comes out of its envelope as it went in, packed or not. -/
theorem Envelope.unwrap_wrap (hpack : Compressor.IsFaithful) {b : UInt8} (tail : Bytes)
    (hb : b ≠ marker) (codec : Codec) : unwrap (wrap codec (b :: tail)) = .ok (b :: tail) := by
  simp only [wrap]
  split
  · rename_i packed hpacked
    rw [unwrap, if_pos rfl, unpack_of_pack? hpack hpacked]
  · rw [unwrap, if_neg hb]

namespace Codec

theorem encode_of_encode {codec : Codec} {patch : Patch} {body : Bytes}
    (h : Body.encode codec.charset patch = .ok body) :
    codec.encode patch = .ok (Envelope.wrap codec body) := by
  simp only [encode, h, bind, Except.bind]
  rfl

/-- A payload is a body, or a packed body behind the marker. -/
theorem decode_eq_ok {codec : Codec} {payload : Bytes} {x : Widths × Patch} :
    codec.decode payload = .ok x ↔ Body.decode codec.charset payload = .ok x ∨
      ∃ packed body, payload = Envelope.marker :: packed ∧ Envelope.unpack packed = .ok body ∧
        Body.decode codec.charset body = .ok x := by
  rw [decode, bind_eq_ok]
  constructor
  · rintro ⟨body, hunwrap, hdecode⟩
    cases payload with
    | nil => cases hunwrap
    | cons b rest =>
      rw [Envelope.unwrap] at hunwrap
      split at hunwrap
      · rename_i hb
        exact .inr ⟨rest, body, by rw [hb], hunwrap, hdecode⟩
      · obtain rfl := Except.ok.inj hunwrap
        exact .inl hdecode
  · rintro (hdecode | ⟨packed, body, rfl, hunpack, hdecode⟩)
    · obtain ⟨b, tail, rfl, hb⟩ := Body.head_ne_marker_of_decode hdecode
      exact ⟨b :: tail, by rw [Envelope.unwrap, if_neg hb], hdecode⟩
    · exact ⟨body, by rw [Envelope.unwrap, if_pos rfl, hunpack], hdecode⟩

/-- A patch that can be prepared is written, and its payload is read back as the patch. -/
theorem exists_encode (hpack : Compressor.IsFaithful) {codec : Codec} {patch : Patch} {w : Widths}
    {es : List (Edit Bytes)} (h : Body.prepare codec.charset patch = .ok (w, es)) :
    ∃ payload, codec.encode patch = .ok payload ∧ codec.decode payload = .ok (w, patch) := by
  obtain ⟨b, tail, hencode, hb, hdecode⟩ := Body.exists_body h
  refine ⟨Envelope.wrap codec (b :: tail), encode_of_encode hencode, ?_⟩
  simp only [decode, Envelope.unwrap_wrap hpack tail hb codec, bind, Except.bind, hdecode]

/-- Whatever payload a patch is written as is read back as the patch. -/
theorem decode_payload (hpack : Compressor.IsFaithful) {codec : Codec} {patch : Patch}
    {payload : Bytes} (h : codec.encode patch = .ok payload) :
    ∃ w, codec.decode payload = .ok (w, patch) := by
  cases hprepare : Body.prepare codec.charset patch with
  | error e =>
    simp only [encode, Body.encode, hprepare, bind, Except.bind] at h
    cases h
  | ok pair =>
    obtain ⟨w, es⟩ := pair
    obtain ⟨payload', hencode, hdecode⟩ := exists_encode hpack hprepare
    obtain rfl := Except.ok.inj (hencode.symm.trans h)
    exact ⟨w, hdecode⟩

end Codec

namespace Delta

variable {codec : Codec} {threshold : Nat} {previous current : Text} {output output' : Bytes}

/-- A write appends the payload of the patch or leaves the output as it is. -/
theorem run_write (codec : Codec) (threshold : Nat) (previous current : Text) (output : Bytes) :
    (write codec threshold previous current).run.run output =
      match codec.encode (Patch.between threshold previous current) with
      | .ok payload => (.ok (), output ++ payload)
      | .error e => (.error e, output) := by
  simp only [write]
  cases codec.encode (Patch.between threshold previous current) <;> rfl

theorem rebuild_of_decode {w : Widths} {patch : Patch} {payload : Bytes}
    (hdecode : codec.decode payload = .ok (w, patch)) (happly : patch.apply previous = .ok current) :
    rebuild codec previous payload = .ok current := by
  rw [rebuild, hdecode]
  simp only [Except.mapError, bind, Except.bind, happly]

/-- Deltas lead back to their texts. With a compressor that gives back what it packed, whatever a
write that succeeds appends leads from the previous text to the current one; a write succeeds where
the charset holds the current text, as no block of it ends inside a surrogate pair; and one that
fails leaves the output alone. -/
theorem write_rebuild (hpack : Compressor.IsFaithful) (codec : Codec) (threshold : Nat)
    (previous current : Text) (hprevious : 3 * previous.length < 1 <<< 31)
    (hcurrent : 3 * current.length < 1 <<< 31) (output : Bytes) :
    (∀ output', (write codec threshold previous current).run.run output = (.ok (), output') →
      ∃ payload, output' = output ++ payload ∧ rebuild codec previous payload = .ok current) ∧
    (codec.charset ≠ .utf8 ∨ current.hasUnpaired = false →
      ∃ output', (write codec threshold previous current).run.run output = (.ok (), output')) ∧
    (∀ x ∈ (Alignment.compute threshold previous current).current,
      current.splitsPair x.start = false ∧ current.splitsPair x.stop = false) ∧
    ∀ e output', (write codec threshold previous current).run.run output = (.error e, output') →
      output' = output := by
  have happly : (Patch.between threshold previous current).apply previous = .ok current :=
    (Alignment.sound_compute threshold previous current).apply_edits
  rw [run_write]
  refine ⟨?_, ?_, fun x => Alignment.splitsPair_ofTexts, ?_⟩
  · intro output' hwrite
    split at hwrite
    · rename_i payload hencode
      obtain ⟨w, hdecode⟩ := Codec.decode_payload hpack hencode
      exact ⟨payload, (congrArg Prod.snd hwrite).symm, rebuild_of_decode hdecode happly⟩
    · cases congrArg Prod.fst hwrite
  · intro hheld
    have hholds : codec.charset.Holds current := fun hutf8 => hheld.resolve_left (absurd hutf8)
    obtain ⟨w, es, hprepare⟩ := Body.exists_prepare_between hholds (Text.isShort_of_lt hprevious)
      (Text.isShort_of_lt hcurrent) threshold
    obtain ⟨payload, hencode, -⟩ := Codec.exists_encode hpack hprepare
    rw [hencode]
    exact ⟨_, rfl⟩
  · intro e output' hwrite
    split at hwrite
    · cases congrArg Prod.fst hwrite
    · exact (congrArg Prod.snd hwrite).symm

end Delta

end Faithful

namespace Delta

/-- Two texts that share the first half of a surrogate pair; the second one is long enough to be
packed. -/
theorem write_rebuild_shared_half : ∃ payload,
    (write ⟨.utf8, true, 6⟩ 12 [0xD83D, 0xDE01]
      (0xD83D :: 0xDE00 :: List.replicate 40 0x61)).run.run [7] = (.ok (), 7 :: payload) ∧
    rebuild ⟨.utf8, true, 6⟩ [0xD83D, 0xDE01] payload =
      .ok (0xD83D :: 0xDE00 :: List.replicate 40 0x61) := by
  obtain ⟨hback, hwrites, -, -⟩ := write_rebuild isFaithful_deflate ⟨.utf8, true, 6⟩ 12
    [0xD83D, 0xDE01] (0xD83D :: 0xDE00 :: List.replicate 40 0x61) (by decide) (by decide) [7]
  obtain ⟨output, hrun⟩ := hwrites (.inr (by decide))
  obtain ⟨payload, rfl, hrebuild⟩ := hback output hrun
  exact ⟨payload, hrun, hrebuild⟩

end Delta
end EditHistory
