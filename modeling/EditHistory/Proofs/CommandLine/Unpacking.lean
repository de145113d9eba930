import EditHistory.CommandLine.Inspect
import EditHistory.Proofs.Text.Utf8
import EditHistory.Proofs.Transport.TextForm

/-! Whether the body of a payload had to be unpacked, and what its listing says about that. The listing
goes by the first byte of the file. In binary form that is what the decoder goes by as well. In text form
the decoder trims first, so that the mark of a packed payload does not count for the listing where there is
white space in front of it. -/
namespace EditHistory

namespace Envelope

/-! ## Unwrapping with a note -/

section Noting

variable [Compressor] {body : Bytes} {unpacked : Bool}

/-- Unwraps a payload and notes whether the body had to be unpacked. -/
def unwrapNoting : Bytes → Except DecodeError (Bytes × Bool)
  | [] => .error .empty
  | b :: rest => if b = marker then (·, true) <$> unpack rest else .ok (b :: rest, false)

def unwrapTextNoting (payload : List Char) : Except DecodeError (Bytes × Bool) :=
  match trim payload with
  | [] => .error .empty
  | c :: rest =>
    if c = textMarker then (·, true) <$> (decodeBase64 rest >>= unpack)
    else (·, false) <$> decodeBase64 (c :: rest)

/-- Without the note it is unwrapping. -/
theorem map_fst_unwrapNoting (payload : Bytes) : Prod.fst <$> unwrapNoting payload = unwrap payload := by
  cases payload with
  | nil => rfl
  | cons b rest =>
    by_cases hb : b = marker
    · rw [unwrapNoting, unwrap, if_pos hb, if_pos hb]
      cases unpack rest <;> rfl
    · rw [unwrapNoting, unwrap, if_neg hb, if_neg hb]
      rfl

theorem map_fst_unwrapTextNoting (payload : List Char) :
    Prod.fst <$> unwrapTextNoting payload = unwrapText payload := by
  rw [unwrapTextNoting, unwrapText]
  cases trim payload with
  | nil => rfl
  | cons c rest =>
    by_cases hc : c = textMarker
    · simp only [if_pos hc]
      cases decodeBase64 rest >>= unpack <;> rfl
    · simp only [if_neg hc]
      cases decodeBase64 (c :: rest) <;> rfl

/-- A binary payload is unpacked where it starts with the marker. -/
theorem unpacked_iff_head {payload : Bytes} (h : unwrapNoting payload = .ok (body, unpacked)) :
    unpacked = true ↔ payload.head? = some marker := by
  cases payload with
  | nil => cases h
  | cons b rest =>
    rw [List.head?_cons, Option.some_inj]
    by_cases hb : b = marker
    · rw [unwrapNoting, if_pos hb] at h
      obtain ⟨_, -, hpair⟩ := map_eq_ok.mp h
      exact iff_of_true (Prod.mk.inj hpair).2.symm hb
    · rw [unwrapNoting, if_neg hb] at h
      exact iff_of_false (by simp [← (Prod.mk.inj (Except.ok.inj h)).2]) hb

/-- A text payload is unpacked where the mark comes first once it is trimmed. -/
theorem unpacked_iff_head_trim {payload : List Char}
    (h : unwrapTextNoting payload = .ok (body, unpacked)) :
    unpacked = true ↔ (trim payload).head? = some textMarker := by
  rw [unwrapTextNoting] at h
  cases htrim : trim payload with
  | nil =>
    rw [htrim] at h
    cases h
  | cons c rest =>
    rw [htrim] at h
    rw [List.head?_cons, Option.some_inj]
    by_cases hc : c = textMarker
    · simp only [if_pos hc] at h
      obtain ⟨_, -, hpair⟩ := map_eq_ok.mp h
      exact iff_of_true (Prod.mk.inj hpair).2.symm hc
    · simp only [if_neg hc] at h
      obtain ⟨_, -, hpair⟩ := map_eq_ok.mp h
      exact iff_of_false (by simp [← (Prod.mk.inj hpair).2]) hc

end Noting

/-! ## White space in front -/

/-- What stands in front stays there if it is no white space. -/
theorem head?_trim_cons {c : Char} (hc : isBlank c = false) (cs : List Char) :
    (trim (c :: cs)).head? = some c := by
  rw [trim, trimStart, List.dropWhile_cons_of_neg (by simp [hc]), trimEnd, List.reverse_cons,
    List.dropWhile_append]
  split
  · rw [List.dropWhile_cons_of_neg (by simp [hc])]
    rfl
  · rw [List.reverse_append]
    rfl

/-- The mark comes first where it comes first once the payload is trimmed, and there was nothing to trim
in front of it. -/
theorem head?_eq_textMarker_iff (payload : List Char) : payload.head? = some textMarker ↔
    (trim payload).head? = some textMarker ∧ ∀ c ∈ payload.head?, isBlank c = false := by
  have hvisible : isBlank textMarker = false := by decide
  cases payload with
  | nil => exact iff_of_false nofun fun h => nomatch h.1
  | cons c cs =>
    simp only [List.head?_cons, Option.some_inj, Option.mem_def, forall_eq']
    constructor
    · rintro rfl
      exact ⟨head?_trim_cons hvisible cs, hvisible⟩
    · rintro ⟨htrim, hc⟩
      exact Option.some.inj ((head?_trim_cons hc cs).symm.trans htrim)

end Envelope

namespace CommandLine

/-- A text payload file starts with white space. -/
def StartsBlank (bytes : Bytes) : Prop :=
  ∃ payload, Utf8.decodeChars bytes = .ok payload ∧ ∃ c ∈ payload.head?, isBlank c = true

section StartsBlank

variable {bytes : Bytes} {payload : List Char}

theorem not_startsBlank_iff (h : Utf8.decodeChars bytes = .ok payload) :
    ¬ StartsBlank bytes ↔ ∀ c ∈ payload.head?, isBlank c = false := by
  constructor
  · intro hnot c hc
    exact Bool.eq_false_iff.mpr fun hblank => hnot ⟨payload, h, c, hc, hblank⟩
  · rintro hvisible ⟨payload', h', c, hc, hblank⟩
    obtain rfl := Except.ok.inj (h.symm.trans h')
    exact Bool.eq_false_iff.mp (hvisible c hc) hblank

/-- The byte of the mark comes first in a text payload file where the mark does. -/
theorem head?_eq_textMarker_toUInt8_iff (h : Utf8.decodeChars bytes = .ok payload) :
    bytes.head? = some Envelope.textMarker.toNat.toUInt8 ↔ payload.head? = some Envelope.textMarker := by
  rw [← Utf8.ofChars_of_decodeChars h]
  exact Utf8.head?_ofChars_eq_some_iff (by decide)

end StartsBlank

namespace InspectOptions

section Listing

variable [Compressor] {i : InspectOptions} {files : FileSystem} {l : Listing}

/-- Takes the body out of a payload file and notes whether it had to be unpacked. -/
def unwrapNoting (i : InspectOptions) (bytes : Bytes) : Except String (Bytes × Bool) :=
  if i.text then do
    let payload ← (Utf8.decodeChars bytes).mapError Utf8.Fault.message
    (Envelope.unwrapTextNoting payload).mapError DecodeError.message
  else (Envelope.unwrapNoting bytes).mapError DecodeError.message

/-- Without the note this is how a payload file is decoded. -/
theorem decode_eq_noting (i : InspectOptions) (bytes : Bytes) : i.decode bytes =
    i.unwrapNoting bytes >>= fun x => (Body.decode i.codec.charset x.1).mapError DecodeError.message := by
  have hfst {x : Except DecodeError (Bytes × Bool)} :
      (Prod.fst <$> x >>= Body.decode i.codec.charset).mapError DecodeError.message =
        x.mapError DecodeError.message >>= fun y =>
          (Body.decode i.codec.charset y.1).mapError DecodeError.message := by
    cases x <;> rfl
  rw [decode, unwrapNoting]
  split
  · cases Utf8.decodeChars bytes with
    | error e => rfl
    | ok payload =>
      show (Envelope.unwrapText payload >>= Body.decode i.codec.charset).mapError _ = _
      rw [← Envelope.map_fst_unwrapTextNoting, hfst]
      rfl
  · show (Envelope.unwrap bytes >>= Body.decode i.codec.charset).mapError _ = _
    rw [← Envelope.map_fst_unwrapNoting, hfst]

/-- What the first byte of a payload file tells about unpacking. -/
theorem head?_eq_packedMark_iff {bytes body : Bytes} {unpacked : Bool}
    (h : i.unwrapNoting bytes = .ok (body, unpacked)) :
    bytes.head? = some i.packedMark ↔ unpacked = true ∧ ¬ (i.text = true ∧ StartsBlank bytes) := by
  cases htext : i.text with
  | false =>
    rw [unwrapNoting, htext] at h
    rw [packedMark, htext, Envelope.unpacked_iff_head (mapError_eq_ok.mp h)]
    simp
  | true =>
    rw [unwrapNoting, htext] at h
    obtain ⟨payload, hpayload, hunwrap⟩ := bind_eq_ok.mp h
    have hchars := mapError_eq_ok.mp hpayload
    rw [Envelope.unpacked_iff_head_trim (mapError_eq_ok.mp hunwrap), packedMark, htext, if_pos rfl,
      head?_eq_textMarker_toUInt8_iff hchars, Envelope.head?_eq_textMarker_iff,
      eq_self, true_and, not_startsBlank_iff hchars]

/-- What is listed was taken out of the payload file, and is said to be packed if it had to be unpacked
and there is no white space in front of a text payload. -/
theorem isPacked_of_compute (h : i.compute files = .ok l) :
    ∃ bytes body unpacked, files.readBytes i.payload = .ok bytes ∧
      i.unwrapNoting bytes = .ok (body, unpacked) ∧
      Body.decode i.codec.charset body = .ok (l.widths, l.patch) ∧
      (l.isPacked = true ↔ unpacked = true ∧ ¬ (i.text = true ∧ StartsBlank bytes)) := by
  obtain ⟨bytes, hbytes, h⟩ := bind_eq_ok.mp h
  obtain ⟨⟨w, patch⟩, hdecode, h⟩ := bind_eq_ok.mp h
  obtain rfl := Except.ok.inj h
  have hdecode := mapError_eq_ok.mp hdecode
  rw [decode_eq_noting] at hdecode
  obtain ⟨⟨body, unpacked⟩, hunwrap, hbody⟩ := bind_eq_ok.mp hdecode
  refine ⟨bytes, body, unpacked, mapError_eq_ok.mp hbytes, hunwrap, mapError_eq_ok.mp hbody, ?_⟩
  rw [← head?_eq_packedMark_iff hunwrap]
  exact beq_iff_eq

end Listing

/-- A packed insertion in text form. -/
theorem isPacked_of_compute_packed_insertion :
    let files : FileSystem := ⟨[(["delta"], .file (Utf8.ofString "_AQUA+v8AAAJXgA==\n"))], []⟩
    let i : InspectOptions := ⟨"delta", true, ⟨.utf8, true, 6⟩⟩
    ∃ l body unpacked, i.compute files = .ok l ∧ l.isPacked = true ∧
      i.unwrapNoting (Utf8.ofString "_AQUA+v8AAAJXgA==\n") = .ok (body, unpacked) ∧ unpacked = true ∧
      Body.decode i.codec.charset body = .ok (l.widths, l.patch) := by
  intro files i
  have hmarked : Listing.isPacked <$> i.compute files = .ok true := by decide +kernel
  obtain ⟨l, hlisted, hpacked⟩ := map_eq_ok.mp hmarked
  obtain ⟨bytes, body, unpacked, hbytes, hunwrap, hbody, htold⟩ := isPacked_of_compute hlisted
  have hread : files.readBytes i.payload = .ok (Utf8.ofString "_AQUA+v8AAAJXgA==\n") := by decide +kernel
  obtain rfl := Except.ok.inj (hread.symm.trans hbytes)
  exact ⟨l, body, unpacked, hlisted, hpacked, hunwrap, (htold.mp hpacked).1, hbody⟩

/-- With a line break in front, the same payload is listed as not packed. -/
theorem isPacked_of_line_break :
    let files : FileSystem := ⟨[(["delta"], .file (Utf8.ofString "\n_AQUA+v8AAAJXgA==\n"))], []⟩
    let i : InspectOptions := ⟨"delta", true, ⟨.utf8, true, 6⟩⟩
    Listing.isPacked <$> i.compute files = .ok false ∧
      ∃ bytes body, files.readBytes i.payload = .ok bytes ∧ i.unwrapNoting bytes = .ok (body, true) := by
  intro files i
  refine ⟨by decide +kernel, Utf8.ofString "\n_AQUA+v8AAAJXgA==\n", [0, 0, 2, 0x57, 0x80],
    by decide +kernel, by decide +kernel⟩

end InspectOptions
end CommandLine
end EditHistory
