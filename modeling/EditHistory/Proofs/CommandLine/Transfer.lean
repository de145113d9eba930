import EditHistory.CommandLine.Transfer
import EditHistory.Proofs.CommandLine.History

/-! Texts carried over in files. What the one command writes, the other one reads: in text form a line
feed is appended and trimmed again, and the body that is taken out of its envelope on reading is taken
out once more on decoding, which does nothing as no body starts with the marker of packed payloads. -/
namespace EditHistory
namespace CommandLine

variable {files : FileSystem} {previous current : Text} {path : String} {codec : Codec}
  {patch : Patch} {body : Bytes}

section Payloads

variable [Compressor]

/-! ## Payload files -/

/-- The content of the payload file for a body. -/
def payloadOf (codec : Codec) (text : Bool) (body : Bytes) : Bytes :=
  if text then Utf8.ofChars (Envelope.wrapText codec body ++ ['\n']) else Envelope.wrap codec body

theorem payloadContent_of_encode (h : Body.encode codec.charset patch = .ok body) (text : Bool) :
    payloadContent codec text patch = .ok (payloadOf codec text body) := by
  cases text with
  | false => exact Codec.encode_of_encode h
  | true =>
    simp only [payloadContent, Codec.encodeText_of_encode h, bind, Except.bind]
    rfl

/-- The text form of a body is the same with a line feed behind it. -/
theorem unwrapText_line (hpack : Compressor.IsFaithful) (hbody : body ≠ []) (codec : Codec) :
    Envelope.unwrapText (Envelope.wrapText codec body ++ ['\n']) = .ok body := by
  have hblank : ∀ c ∈ ['\n'], isBlank c = true := List.forall_mem_singleton.mpr rfl
  rw [Envelope.unwrapText_append _ hblank,
    Envelope.unwrapText_wrapText hpack isFaithful_base64 hbody codec]

/-- Reading a payload in text form takes it out of that form. -/
theorem readPayload_text_eq_ok : readPayload files true path = .ok body ↔ ∃ bytes payload,
    files.readBytes path = .ok bytes ∧ Utf8.decodeChars bytes = .ok payload ∧
      Envelope.unwrapText payload = .ok body := by
  simp only [readPayload, faultAt, Bool.not_true, Bool.false_eq_true, if_false, bind_eq_ok,
    mapError_eq_ok, exists_and_left]

/-- A payload file is read as a payload with its body in it. In text form the payload is the body. -/
theorem exists_readPayload (hpack : Compressor.IsFaithful) {b : UInt8} {tail : Bytes}
    (hb : b ≠ Envelope.marker) (text : Bool)
    (h : files.readBytes path = .ok (payloadOf codec text (b :: tail))) :
    ∃ payload, readPayload files text path = .ok payload ∧
      Envelope.unwrap payload = .ok (b :: tail) := by
  cases text with
  | false =>
    refine ⟨Envelope.wrap codec (b :: tail), ?_, Envelope.unwrap_wrap hpack tail hb codec⟩
    simp only [readPayload, h, faultAt, Except.mapError, bind, Except.bind]
    rfl
  | true =>
    have hline := unwrapText_line hpack (List.cons_ne_nil b tail) codec
    refine ⟨b :: tail, ?_, by rw [Envelope.unwrap, if_neg hb]⟩
    exact readPayload_text_eq_ok.mpr ⟨_, _, h, Utf8.decodeChars_ofChars _, hline⟩

/-! ## The two commands -/

/-- Between files that can be read there is a payload. -/
theorem DiffOptions.exists_compute {d : DiffOptions}
    (hprevious : files.readText d.previous = .ok previous)
    (hcurrent : files.readText d.current = .ok current) (hp : previous.IsShort)
    (hc : current.IsShort) :
    ∃ r w b tail, d.compute files = .ok r ∧ r.content = payloadOf d.codec d.text (b :: tail) ∧
      b ≠ Envelope.marker ∧
      Body.decode d.codec.charset (b :: tail) =
        .ok (w, Patch.between d.threshold previous current) := by
  have hheld : d.codec.charset.Holds current := fun _ => hasUnpaired_of_readText hcurrent
  obtain ⟨w, es, hprepare⟩ := Body.exists_prepare_between hheld hp hc d.threshold
  obtain ⟨b, tail, hencode, hb, hdecode⟩ := Body.exists_body hprepare
  have hcontent := payloadContent_of_encode hencode d.text
  refine ⟨⟨previous.length, current.length, (Patch.between d.threshold previous current).length,
    Envelope.wrap d.codec (b :: tail), payloadOf d.codec d.text (b :: tail)⟩, w, b, tail, ?_, rfl, hb,
    hdecode⟩
  simp only [compute, readRevision, hprevious, hcurrent, faultAt, Except.mapError, bind, Except.bind,
    Codec.encode_of_encode hencode, hcontent]
  rfl

/-- A payload that is read and decoded is applied. -/
theorem ApplyOptions.compute_of_decode {a : ApplyOptions} {payload : Bytes} {w : Widths}
    (hprevious : files.readText a.previous = .ok previous)
    (hread : readPayload files a.text a.payload = .ok payload)
    (hdecode : a.codec.decode payload = .ok (w, patch)) :
    a.compute files = (patch.apply previous).mapError fun e => s!"apply error: {e.message}" := by
  simp only [compute, readRevision, faultAt, hprevious, hread, Delta.rebuild, hdecode, Except.mapError,
    bind, Except.bind]
  cases patch.apply previous <;> rfl

theorem DiffOptions.exists_run {d : DiffOptions} {o : Options} {r : Result} {after : FileSystem}
    {output : Bytes} (hcompute : d.compute files = .ok r)
    (hdeliver : deliver files d.output o.force r.content = .ok (after, output)) :
    ∃ notes, d.run o files = ⟨after, 0, output, notes⟩ := by
  simp only [run, hcompute, hdeliver, bind, Except.bind]
  exact ⟨_, rfl⟩

theorem ApplyOptions.exists_run {a : ApplyOptions} {o : Options} {after : FileSystem} {output : Bytes}
    (hcompute : a.compute files = .ok current)
    (hdeliver : deliver files a.output o.force (Utf8.encodeLossy current) = .ok (after, output)) :
    ∃ notes, a.run o files = ⟨after, 0, output, notes⟩ := by
  simp only [run, hcompute, hdeliver, bind, Except.bind]
  exact ⟨_, rfl⟩

/-- What the one command writes is what the other one applies, to the same text, in the same form and
charset. -/
structure ApplyOptions.Follows (a : ApplyOptions) (d : DiffOptions) : Prop where
  payload_eq : d.output = some a.payload
  previous_eq : a.previous = d.previous
  text_eq : a.text = d.text
  charset_eq : a.codec.charset = d.codec.charset

/-- A payload file is applied as it was written, where the text it applies to is still there. -/
theorem ApplyOptions.compute_of_follows (hpack : Compressor.IsFaithful) {d : DiffOptions}
    {a : ApplyOptions} (hfollows : a.Follows d) {w : Widths} {b : UInt8} {tail : Bytes}
    (hb : b ≠ Envelope.marker) (hdecode : Body.decode d.codec.charset (b :: tail) = .ok (w, patch))
    (happly : patch.apply previous = .ok current) (hprevious : files.readText d.previous = .ok previous)
    (hpayload : files.readBytes a.payload = .ok (payloadOf d.codec d.text (b :: tail))) :
    a.compute files = .ok current := by
  rw [← hfollows.text_eq] at hpayload
  obtain ⟨payload, hread, hunwrap⟩ := exists_readPayload hpack hb a.text hpayload
  have hpatch : a.codec.decode payload = .ok (w, patch) := by
    rw [Codec.decode, hunwrap, hfollows.charset_eq]
    exact hdecode
  rw [← hfollows.previous_eq] at hprevious
  rw [compute_of_decode hprevious hread hpatch, happly]
  rfl

/-- Texts are carried over in files. With a compressor that gives back what it packed, and where the
outputs can be opened, a payload is written between any two files that can be read; and if it has not
replaced the first one of them, it is applied to that file and makes the bytes of the second one. -/
theorem ApplyOptions.run_restores (hpack : Compressor.IsFaithful) (d : DiffOptions) (a : ApplyOptions)
    (hfollows : a.Follows d) (o o' : Options) (files : FileSystem) (previous current : Text)
    (hprevious : files.readText d.previous = .ok previous)
    (hcurrent : files.readText d.current = .ok current) (hp : 3 * previous.length < 1 <<< 31)
    (hc : 3 * current.length < 1 <<< 31) (hapart : files.Apart a.payload d.previous)
    (hdiff : CanDeliver files d.output o.force)
    (happly : CanDeliver (d.run o files).files a.output o'.force) :
    (d.run o files).exitCode = 0 ∧ (a.run o' (d.run o files).files).exitCode = 0 ∧
      ∃ bytes, files.readBytes d.current = .ok bytes ∧
        (a.run o' (d.run o files).files).Delivers (d.run o files).files a.output bytes := by
  obtain ⟨r, w, b, tail, hcompute, hcontent, hb, hdecode⟩ := DiffOptions.exists_compute hprevious
    hcurrent (Text.isShort_of_lt hp) (Text.isShort_of_lt hc)
  obtain ⟨after, output, hdeliver, -⟩ := exists_deliver hdiff r.content
  obtain ⟨notes, hrun⟩ := DiffOptions.exists_run hcompute hdeliver
  rw [hfollows.payload_eq, hcontent] at hdeliver
  obtain ⟨-, hwrite⟩ := write_of_deliver hdeliver
  have hpatch : (Patch.between d.threshold previous current).apply previous = .ok current :=
    (Alignment.sound_compute d.threshold previous current).apply_edits
  have hrestored : a.compute after = .ok current := compute_of_follows hpack hfollows hb hdecode hpatch
    (FileSystem.readText_of_apart hwrite hapart hprevious) (FileSystem.readBytes_write hwrite)
  rw [hrun] at happly ⊢
  obtain ⟨after', output', hdeliver', hdelivers⟩ := exists_deliver happly (Utf8.encodeLossy current)
  obtain ⟨notes', hrun'⟩ := exists_run hrestored hdeliver'
  obtain ⟨bytes, hbytes, hutf8⟩ := FileSystem.readText_eq_ok.mp hcurrent
  rw [Utf8.encodeLossy_of_decode hutf8] at hdelivers
  rw [hrun']
  exact ⟨rfl, rfl, bytes, hbytes, hdelivers 0 notes'⟩

end Payloads

/-- Two files between which a packed payload is written in text form, in place of a file that is
replaced; what it makes of the first one is printed. -/
theorem ApplyOptions.run_restores_packed_text :
    let content : Bytes := 0xC3 :: 0xA4 :: List.replicate 40 0x61
    let files : FileSystem := ⟨[(["old"], .file [0x61]), (["new"], .file content),
      (["delta"], .file [0x0A])], []⟩
    let d : DiffOptions := ⟨"old", "new", some "delta", true, 12, ⟨.utf16le, true, 6⟩⟩
    let a : ApplyOptions := ⟨"old", "delta", none, true, ⟨.utf16le, false, 0⟩⟩
    let o : Options := ⟨.diff d, true, false, 0, false⟩
    let o' : Options := ⟨.apply a, false, false, 0, false⟩
    (d.run o files).exitCode = 0 ∧ (a.run o' (d.run o files).files).exitCode = 0 ∧
      (a.run o' (d.run o files).files).output = content := by
  intro content files d a o o'
  have hold : files.readText "old" = .ok [0x61] := by decide +kernel
  have hnew : files.readText "new" = .ok (0xE4 :: List.replicate 40 0x61) := by decide +kernel
  have hfound : files.find "old" = .ok (["old"], .file [0x61]) := by decide +kernel
  have hdelta : files.target "delta" = .ok ["delta"] := by decide +kernel
  have hapart : files.Apart "delta" "old" := by
    intro l n hfind htarget
    obtain rfl := Except.ok.inj (hdelta.symm.trans htarget)
    exact absurd (Prod.mk.inj (Except.ok.inj (hfound.symm.trans hfind))).1 (by decide)
  have hdiff : CanDeliver files (some "delta") true := by
    intro path hpath
    obtain rfl := Option.some.inj hpath
    exact ⟨fun _ => rfl, ["delta"], hdelta⟩
  obtain ⟨hwritten, happlied, bytes, hbytes, hdelivers⟩ := ApplyOptions.run_restores isFaithful_deflate
    d a ⟨rfl, rfl, rfl, rfl⟩ o o' files _ _ hold hnew (by decide) (by decide) hapart hdiff nofun
  have hcontent : files.readBytes "new" = .ok content := by decide +kernel
  obtain rfl := Except.ok.inj (hcontent.symm.trans hbytes)
  exact ⟨hwritten, happlied, hdelivers.1⟩

end CommandLine
end EditHistory
