import EditHistory.CommandLine.Inspect
import EditHistory.Proofs.CommandLine.Transfer

/-! Text payloads as they are listed and as they are applied. A listing takes a payload out of its text
form and reads the body that was in it. An application takes what was in the text form for a binary
payload, and looks for the marker of packed payloads there once more. The two agree on every payload
that can be listed, as no body starts with the marker; but what cannot be listed can still be applied,
if it was wrapped twice. -/
namespace EditHistory
namespace CommandLine

section Payloads

variable [Compressor] {files : FileSystem} {base text : Text} {w : Widths} {patch : Patch}

/-- In the text form there is a packed binary payload where a body should be. -/
def WrappedTwice (charset : Charset) (files : FileSystem) (path : String) (w : Widths) (patch : Patch) :
    Prop :=
  ∃ packed body, readPayload files true path = .ok (Envelope.marker :: packed) ∧
    Envelope.unpack packed = .ok body ∧ Body.decode charset body = .ok (w, patch)

theorem InspectOptions.decode_text_eq_ok {i : InspectOptions} (htext : i.text = true) {bytes : Bytes}
    {x : Widths × Patch} : i.decode bytes = .ok x ↔ ∃ payload body,
      Utf8.decodeChars bytes = .ok payload ∧ Envelope.unwrapText payload = .ok body ∧
        Body.decode i.codec.charset body = .ok x := by
  simp only [decode, htext, if_true, Codec.decodeText, bind_eq_ok, mapError_eq_ok, exists_and_left]

/-- A text payload is listed as the edits of the body in it. -/
theorem InspectOptions.compute_text_eq_ok {i : InspectOptions} (htext : i.text = true) :
    (∃ isPacked, i.compute files = .ok ⟨isPacked, w, patch⟩) ↔
      ∃ body, readPayload files true i.payload = .ok body ∧
        Body.decode i.codec.charset body = .ok (w, patch) := by
  constructor
  · rintro ⟨isPacked, h⟩
    obtain ⟨bytes, hbytes, h⟩ := bind_eq_ok.mp h
    obtain ⟨x, hdecode, h⟩ := bind_eq_ok.mp h
    obtain ⟨payload, body, hpayload, hbody, hpatch⟩ :=
      (decode_text_eq_ok htext).mp (mapError_eq_ok.mp hdecode)
    obtain ⟨-, rfl, rfl⟩ := Listing.mk.inj (Except.ok.inj h)
    exact ⟨body, readPayload_text_eq_ok.mpr ⟨bytes, payload, mapError_eq_ok.mp hbytes, hpayload, hbody⟩,
      hpatch⟩
  · rintro ⟨body, hread, hpatch⟩
    obtain ⟨bytes, payload, hbytes, hpayload, hbody⟩ := readPayload_text_eq_ok.mp hread
    have hdecode : i.decode bytes = .ok (w, patch) :=
      (decode_text_eq_ok htext).mpr ⟨payload, body, hpayload, hbody, hpatch⟩
    refine ⟨bytes.head? == some i.packedMark, ?_⟩
    simp only [compute, faultAt, hbytes, hdecode, Except.mapError, bind, Except.bind]
    rfl

/-- A payload is applied as the edits that it is decoded to. -/
theorem ApplyOptions.compute_eq_ok {a : ApplyOptions} (hbase : files.readText a.previous = .ok base) :
    a.compute files = .ok text ↔ ∃ payload w patch, readPayload files a.text a.payload = .ok payload ∧
      a.codec.decode payload = .ok (w, patch) ∧ patch.apply base = .ok text := by
  constructor
  · intro h
    obtain ⟨base', hbase', h⟩ := bind_eq_ok.mp h
    obtain rfl := Except.ok.inj (hbase.symm.trans (mapError_eq_ok.mp hbase'))
    obtain ⟨payload, hread, h⟩ := bind_eq_ok.mp h
    obtain ⟨⟨w, patch⟩, hdecode, h⟩ := bind_eq_ok.mp (mapError_eq_ok.mp h)
    exact ⟨payload, w, patch, hread, mapError_eq_ok.mp hdecode, mapError_eq_ok.mp h⟩
  · rintro ⟨payload, w, patch, hread, hdecode, happly⟩
    rw [compute_of_decode hbase hread hdecode, happly]
    rfl

/-- What was wrapped twice is not listed. -/
theorem WrappedTwice.exists_refusal {i : InspectOptions} (htext : i.text = true)
    (h : WrappedTwice i.codec.charset files i.payload w patch) :
    ∃ message, i.compute files = .error message := by
  cases hcompute : i.compute files with
  | error message => exact ⟨message, rfl⟩
  | ok l =>
    obtain ⟨packed, -, hmarked, -⟩ := h
    obtain ⟨body, hread, hpatch⟩ := (i.compute_text_eq_ok htext).mp ⟨l.isPacked, hcompute⟩
    obtain rfl := Except.ok.inj (hmarked.symm.trans hread)
    rw [Body.decode_marker] at hpatch
    cases hpatch

/-- How far the two readings of a text payload agree. What is listed is what is applied, whether it can
be applied or not. What was wrapped twice is not listed; and of all payloads that are not listed, these
are the ones that are applied. -/
theorem ApplyOptions.compute_of_listing (a : ApplyOptions) (i : InspectOptions) (files : FileSystem)
    (base : Text) (htext : a.text = true) (hsame : i = ⟨a.payload, true, a.codec⟩)
    (hbase : files.readText a.previous = .ok base) :
    (∀ l, i.compute files = .ok l →
      a.compute files = (l.patch.apply base).mapError fun e => s!"apply error: {e.message}") ∧
    (∀ w patch, WrappedTwice a.codec.charset files a.payload w patch →
      ∃ message, i.compute files = .error message) ∧
    ∀ message, i.compute files = .error message → ∀ text, a.compute files = .ok text ↔
      ∃ w patch, WrappedTwice a.codec.charset files a.payload w patch ∧ patch.apply base = .ok text := by
  subst hsame
  refine ⟨?_, fun w patch htwice => htwice.exists_refusal rfl, ?_⟩
  · rintro ⟨isPacked, w, patch⟩ hlisted
    obtain ⟨body, hread, hpatch⟩ := (InspectOptions.compute_text_eq_ok rfl).mp ⟨isPacked, hlisted⟩
    rw [← htext] at hread
    exact compute_of_decode hbase hread (Codec.decode_eq_ok.mpr (.inl hpatch))
  · intro message hrefused text
    rw [compute_eq_ok hbase, htext]
    constructor
    · rintro ⟨payload, w, patch, hread, hdecode, happly⟩
      rcases Codec.decode_eq_ok.mp hdecode with hpatch | ⟨packed, body, rfl, hunpack, hpatch⟩
      · -- a body in the text form would have been listed
        obtain ⟨isPacked, hlisted⟩ := (InspectOptions.compute_text_eq_ok
          (i := ⟨a.payload, true, a.codec⟩) rfl).mpr ⟨payload, hread, hpatch⟩
        rw [hlisted] at hrefused
        cases hrefused
      · exact ⟨w, patch, ⟨packed, body, hread, hunpack, hpatch⟩, happly⟩
    · rintro ⟨w, patch, ⟨packed, body, hread, hunpack, hpatch⟩, happly⟩
      exact ⟨_, w, patch, hread, Codec.decode_eq_ok.mpr (.inr ⟨packed, body, rfl, hunpack, hpatch⟩),
        happly⟩

end Payloads

/-- The insertion of one character, listed and applied. -/
theorem ApplyOptions.compute_of_listing_insertion :
    let files : FileSystem := ⟨[(["old"], .file [0x79]),
      (["delta"], .file (Utf8.ofString "AAACV4A=\n"))], []⟩
    let a : ApplyOptions := ⟨"old", "delta", none, true, ⟨.utf8, true, 6⟩⟩
    let i : InspectOptions := ⟨"delta", true, ⟨.utf8, true, 6⟩⟩
    ∃ l, i.compute files = .ok l ∧
      a.compute files = (l.patch.apply [0x79]).mapError fun e => s!"apply error: {e.message}" := by
  intro files a i
  have hlisted : (i.run ⟨.inspect i, false, false, 0, false⟩ files).exitCode = 0 := by decide +kernel
  cases hcompute : i.compute files with
  | error message =>
    rw [InspectOptions.run, hcompute] at hlisted
    cases hlisted
  | ok l =>
    exact ⟨l, rfl, (ApplyOptions.compute_of_listing a i files [0x79] rfl rfl (by decide +kernel)).1 l
      hcompute⟩

/-- The same insertion as a binary payload, packed without compression, in the text form that a body is
written in: it is applied, but it is not listed. -/
theorem ApplyOptions.run_wrapped_twice :
    let files : FileSystem := ⟨[(["old"], .file [0x79]),
      (["delta"], .file (Utf8.ofString "gAEFAPr/AAACV4A=\n"))], []⟩
    let a : ApplyOptions := ⟨"old", "delta", none, true, ⟨.utf8, true, 6⟩⟩
    let i : InspectOptions := ⟨"delta", true, ⟨.utf8, true, 6⟩⟩
    let applied := a.run ⟨.apply a, false, false, 0, false⟩ files
    let listed := i.run ⟨.inspect i, false, false, 0, false⟩ files
    applied.exitCode = 0 ∧ applied.output = [0x78, 0x79] ∧ listed.exitCode = 1 ∧
      listed.notes = noteLine "invalid payload: expected codec marker, found action code 4" := by
  decide +kernel

end CommandLine
end EditHistory
