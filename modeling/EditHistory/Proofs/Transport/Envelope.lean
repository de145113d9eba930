import EditHistory.Proofs.Transport.TextForm

/-! Envelopes lose nothing and never make a body longer, and their first byte or character tells whether
the body was packed. In binary form that takes a body that does not start with the marker itself, which no
written body does; in text form any body will do. -/
namespace EditHistory

/-- A body that is written starts with a byte below those that start a packed payload. -/
theorem Body.head_lt_of_encode {charset : Charset} {patch : Patch} {body : Bytes}
    (h : encode charset patch = .ok body) : ∃ b tail, body = b :: tail ∧ b < 0x20 := by
  obtain ⟨w, es, -, hbits⟩ := exists_prepare_of_encode h
  exact head_lt hbits

namespace Envelope

variable [Compressor] {codec : Codec} {body : Bytes}

theorem wrap_of_pays (h : Pays codec body) :
    wrap codec body = marker :: Compressor.pack codec.level body := by
  rw [wrap, pack?_eq_some_iff.mpr ⟨h, rfl⟩]

theorem pack?_of_not_pays (h : ¬ Pays codec body) : pack? codec body = none :=
  Option.eq_none_iff_forall_not_mem.mpr fun _ hpacked => h (pack?_eq_some_iff.mp hpacked).1

theorem wrap_of_not_pays (h : ¬ Pays codec body) : wrap codec body = body := by
  rw [wrap, pack?_of_not_pays h]

/-- A payload is never longer than its body. -/
theorem length_wrap_le (codec : Codec) (body : Bytes) : (wrap codec body).length ≤ body.length := by
  by_cases hpays : Pays codec body
  · rw [wrap_of_pays hpays]
    exact Nat.le_of_lt hpays.2.2
  · rw [wrap_of_not_pays hpays]

/-- The first byte of a payload tells whether its body was packed. -/
theorem head_wrap_eq_marker_iff (hbody : body.head? ≠ some marker) :
    (wrap codec body).head? = some marker ↔ Pays codec body := by
  by_cases hpays : Pays codec body
  · rw [wrap_of_pays hpays]
    exact iff_of_true rfl hpays
  · rw [wrap_of_not_pays hpays]
    exact iff_of_false hbody hpays

section Text

variable [Armor]

theorem wrapText_of_pays (h : Pays codec body) : wrapText codec body =
    textMarker :: charsOf (Armor.encode (Compressor.pack codec.level body)) := by
  rw [wrapText, pack?_eq_some_iff.mpr ⟨h, rfl⟩]

theorem wrapText_of_not_pays (h : ¬ Pays codec body) :
    wrapText codec body = charsOf (Armor.encode body) := by
  rw [wrapText, pack?_of_not_pays h]

/-- The first character of a text payload tells whether its body was packed. -/
theorem head_wrapText_eq_textMarker_iff (harmor : Armor.IsFaithful) :
    (wrapText codec body).head? = some textMarker ↔ Pays codec body := by
  by_cases hpays : Pays codec body
  · rw [wrapText_of_pays hpays]
    exact iff_of_true rfl hpays
  · rw [wrapText_of_not_pays hpays]
    exact iff_of_false (harmor.head_ne_textMarker body) hpays

theorem trim_blank_wrapText (harmor : Armor.IsFaithful) (codec : Codec) (body : Bytes)
    {before after : List Char} (hbefore : ∀ c ∈ before, isBlank c = true)
    (hafter : ∀ c ∈ after, isBlank c = true) :
    trim (before ++ wrapText codec body ++ after) = wrapText codec body := by
  rw [trim_append hafter, trim_blank_append hbefore, trim_wrapText harmor]

end Text

/-- Bodies come out of both kinds of envelopes as they went in, with a compressor that gives back what it
packed. A body that does not start with the marker, such as any that is written, is not made longer in
binary form, and its payload starts with the marker exactly where it was packed. In text form any body may
stand between white space, and without that the text starts with the mark exactly where it was packed. -/
theorem wrap_transports (hpack : Compressor.IsFaithful) (codec : Codec) (body : Bytes)
    (hbody : body ≠ []) :
    (body.head? ≠ some marker → unwrap (wrap codec body) = .ok body ∧
      (wrap codec body).length ≤ body.length ∧
      ((wrap codec body).head? = some marker ↔ Pays codec body) ∧
      (Pays codec body → wrap codec body = marker :: Compressor.pack codec.level body)) ∧
    (∀ charset patch written, Body.encode charset patch = .ok written →
      ∃ b tail, written = b :: tail ∧ b < 0x20) ∧
    ∀ before after, (∀ c ∈ before, isBlank c = true) → (∀ c ∈ after, isBlank c = true) →
      unwrapText (before ++ wrapText codec body ++ after) = .ok body ∧
      ((trim (before ++ wrapText codec body ++ after)).head? = some textMarker ↔ Pays codec body) ∧
      (Pays codec body → trim (before ++ wrapText codec body ++ after) =
        textMarker :: charsOf (Base64.encode (Compressor.pack codec.level body))) := by
  refine ⟨fun hhead => ⟨?_, length_wrap_le codec body, head_wrap_eq_marker_iff hhead, wrap_of_pays⟩,
    fun charset patch written => Body.head_lt_of_encode, fun before after hbefore hafter => ?_⟩
  · cases body with
    | nil => exact absurd rfl hbody
    | cons b tail => exact unwrap_wrap hpack tail (fun heq => hhead (congrArg some heq)) codec
  · have htrim := trim_blank_wrapText isFaithful_base64 codec body hbefore hafter
    have hsame : unwrapText (before ++ wrapText codec body ++ after) =
        unwrapText (wrapText codec body) := by
      rw [unwrapText, htrim, unwrapText, trim_wrapText isFaithful_base64]
    rw [hsame, htrim]
    exact ⟨unwrapText_wrapText hpack isFaithful_base64 hbody codec,
      head_wrapText_eq_textMarker_iff isFaithful_base64, wrapText_of_pays⟩

end Envelope

/-- A body that is long enough to be packed, and one that starts with the marker, which only the text form
can carry. -/
theorem Envelope.wrap_transports_spaced :
    let long : Bytes := 2 :: List.replicate 39 97
    let marked : Bytes := [marker, 1]
    let codec : Codec := ⟨.utf8, true, 6⟩
    long ≠ [] ∧ long.head? ≠ some marker ∧ marked ≠ [] ∧
      unwrap (wrap codec long) = .ok long ∧ (wrap codec long).length ≤ 40 ∧
      unwrapText ([' ', '\n'] ++ wrapText codec long ++ ['\u2003']) = .ok long ∧
      ((trim ([' ', '\n'] ++ wrapText codec long ++ ['\u2003'])).head? = some textMarker ↔
        (wrap codec long).head? = some marker) ∧
      unwrapText (['\t'] ++ wrapText codec marked ++ []) = .ok marked := by
  intro long marked codec
  have hblank : ∀ c ∈ [' ', '\n'], isBlank c = true := List.all_eq_true.mp rfl
  have hafter : ∀ c ∈ ['\u2003'], isBlank c = true := List.all_eq_true.mp rfl
  have htab : ∀ c ∈ ['\t'], isBlank c = true := List.all_eq_true.mp rfl
  obtain ⟨hbinary, -, htext⟩ := wrap_transports isFaithful_deflate codec long (by decide)
  obtain ⟨hback, hlength, hmarker, -⟩ := hbinary (by decide)
  obtain ⟨htextBack, htextMarker, -⟩ := htext _ _ hblank hafter
  obtain ⟨-, -, hmarked⟩ := wrap_transports isFaithful_deflate codec marked (by decide)
  exact ⟨by decide, by decide, by decide, hback, hlength, htextBack, htextMarker.trans hmarker.symm,
    (hmarked ['\t'] [] htab nofun).1⟩

end EditHistory
