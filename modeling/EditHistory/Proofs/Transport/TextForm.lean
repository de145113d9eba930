import EditHistory.Proofs.Delta
import EditHistory.Proofs.Text.Blank
import EditHistory.Proofs.Text.Utf8
import EditHistory.Proofs.Transport.Base64

/-! Payloads in text form. They are written in characters that are no white space, and the mark of a
packed payload is none of them, so a body comes out of its text as it went in. This is the law of whatever
writes the characters, and base64 obeys it. -/
namespace EditHistory

namespace Envelope

/-- A byte that is written as one visible character, and not as the mark of packed payloads. -/
structure IsPlain (b : UInt8) : Prop where
  ascii : b.toNat < 0x80
  visible : isBlank (Char.ofNat b.toNat) = false
  unmarked : Char.ofNat b.toNat ≠ textMarker

theorem ofChars_charsOf {bytes : Bytes} (h : ∀ b ∈ bytes, IsPlain b) :
    Utf8.ofChars (charsOf bytes) = bytes := by
  induction bytes with
  | nil => rfl
  | cons b bytes ih =>
    have hascii := (h b (by simp)).ascii
    have hchar : (Char.ofNat b.toNat).toNat = b.toNat := Utf8.toNat_charOfNat (.inl (by omega))
    have hrest : Utf8.ofChars (charsOf bytes) = bytes := ih fun c hc => h c (by simp [hc])
    rw [charsOf, Utf8.ofChars] at hrest
    rw [charsOf, Utf8.ofChars, List.map_cons, List.flatMap_cons, hchar, Utf8.ofScalar, if_pos hascii,
      hrest]
    simp

end Envelope

/-! ## The law of the characters -/

/-- Bytes are read back as they were written, the text of no bytes is empty, and no character of a text is
white space or the mark of a packed payload. -/
structure Armor.IsFaithful [Armor] : Prop where
  decode_encode : ∀ bytes, decode (encode bytes) = .ok bytes
  encode_nil : encode [] = []
  isPlain : ∀ bytes, ∀ b ∈ encode bytes, Envelope.IsPlain b

theorem isFaithful_base64 : Armor.IsFaithful where
  decode_encode := Base64.decode_encode
  encode_nil := rfl
  isPlain bytes := by
    have hall : ∀ v : Fin 64, (Base64.symbol v).toNat < 0x80 ∧
        isBlank (Char.ofNat (Base64.symbol v).toNat) = false ∧
        Char.ofNat (Base64.symbol v).toNat ≠ Envelope.textMarker := by decide
    refine Base64.forall_mem_encode (fun v hv => ?_) ⟨by decide, by decide, by decide⟩ bytes
    obtain ⟨hascii, hvisible, hunmarked⟩ := hall ⟨v, hv⟩
    exact ⟨hascii, hvisible, hunmarked⟩

namespace Armor.IsFaithful

variable [Armor] (h : Armor.IsFaithful) (bytes : Bytes)

include h

theorem encode_ne_nil {bytes : Bytes} (hbytes : bytes ≠ []) : Armor.encode bytes ≠ [] := by
  intro hnil
  have hback := h.decode_encode bytes
  rw [hnil, ← h.encode_nil, h.decode_encode] at hback
  exact hbytes (Except.ok.inj hback).symm

theorem decodeBase64_charsOf :
    Envelope.decodeBase64 (Envelope.charsOf (Armor.encode bytes)) = .ok bytes := by
  rw [Envelope.decodeBase64, Envelope.ofChars_charsOf (h.isPlain bytes), h.decode_encode]
  rfl

theorem isBlank_eq_false : ∀ c ∈ Envelope.charsOf (Armor.encode bytes), isBlank c = false := by
  intro c hc
  obtain ⟨b, hb, rfl⟩ := List.mem_map.mp hc
  exact (h.isPlain bytes b hb).visible

/-- The text form of a body that is not packed does not start with the mark of those that are. -/
theorem head_ne_textMarker :
    (Envelope.charsOf (Armor.encode bytes)).head? ≠ some Envelope.textMarker := by
  intro hhead
  obtain ⟨b, hb, hmarker⟩ := List.mem_map.mp (List.mem_of_mem_head? hhead)
  exact (h.isPlain bytes b hb).unmarked hmarker

end Armor.IsFaithful

/-! ## Bodies in text form -/

namespace Envelope

section Transport

variable [Compressor] [Armor]

/-- White space behind a payload does not count either. -/
theorem unwrapText_append (payload : List Char) {after : List Char}
    (hafter : ∀ c ∈ after, isBlank c = true) : unwrapText (payload ++ after) = unwrapText payload := by
  rw [unwrapText, trim_append hafter, unwrapText]

/-- A payload in text form has no white space at its ends. -/
theorem trim_wrapText (harmor : Armor.IsFaithful) (codec : Codec) (body : Bytes) :
    trim (wrapText codec body) = wrapText codec body := by
  refine trim_eq_self ?_
  rw [wrapText]
  split
  · rename_i packed hpacked
    exact List.forall_mem_cons.mpr ⟨by decide, harmor.isBlank_eq_false packed⟩
  · exact harmor.isBlank_eq_false body

/-- A body comes out of its text form as it went in, packed or not. -/
theorem unwrapText_wrapText (hpack : Compressor.IsFaithful) (harmor : Armor.IsFaithful) {body : Bytes}
    (hbody : body ≠ []) (codec : Codec) : unwrapText (wrapText codec body) = .ok body := by
  rw [unwrapText, trim_wrapText harmor, wrapText]
  cases hpacked : pack? codec body with
  | some packed =>
    simp only [if_true, harmor.decodeBase64_charsOf, bind, Except.bind, unpack_of_pack? hpack hpacked]
  | none =>
    have hunmarked := harmor.head_ne_textMarker body
    cases hchars : charsOf (Armor.encode body) with
    | nil => exact absurd (List.map_eq_nil_iff.mp hchars) (harmor.encode_ne_nil hbody)
    | cons c rest =>
      rw [hchars, List.head?_cons, ne_eq, Option.some.injEq] at hunmarked
      simp only [if_neg hunmarked]
      rw [← hchars, harmor.decodeBase64_charsOf]

end Transport

end Envelope

theorem Codec.encodeText_of_encode [Compressor] {codec : Codec} {patch : Patch} {body : Bytes}
    (h : Body.encode codec.charset patch = .ok body) :
    codec.encodeText patch = .ok (Envelope.wrapText codec body) := by
  simp only [encodeText, h, bind, Except.bind]
  rfl

/-- A patch that can be prepared is written in text form, and read back as the patch. -/
theorem Codec.exists_encodeText [Compressor] (hpack : Compressor.IsFaithful) {codec : Codec}
    {patch : Patch} {w : Widths} {es : List (Edit Bytes)}
    (h : Body.prepare codec.charset patch = .ok (w, es)) :
    ∃ payload, codec.encodeText patch = .ok payload ∧ codec.decodeText payload = .ok (w, patch) := by
  obtain ⟨b, tail, hencode, -, hdecode⟩ := Body.exists_body h
  refine ⟨Envelope.wrapText codec (b :: tail), encodeText_of_encode hencode, ?_⟩
  simp only [decodeText, Envelope.unwrapText_wrapText hpack isFaithful_base64 (List.cons_ne_nil b tail)
    codec, bind, Except.bind, hdecode]

end EditHistory
