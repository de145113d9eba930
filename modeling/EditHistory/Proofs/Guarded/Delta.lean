import EditHistory.Delta
import EditHistory.Proofs.Guarded.Apply
import EditHistory.Proofs.Guarded.Body

/-! Payloads that nobody vouches for. Whatever bytes come in, reading them and applying what was read to
whatever text comes to no fault. -/
namespace EditHistory

namespace Body

/-- The readers that the loop over the edits of a body comes to, with the widths of the header and the
number of edits read so far. -/
inductive Visits (charset : Charset) (body : Bytes) : Widths → Nat → BitReader → Prop where
  | header {w : Widths} {r : BitReader} (h : Widths.read (BitReader.ofBytes body) = .ok (w, r)) :
    Visits charset body w 0 r
  | turn {w : Widths} {index : Nat} {r r' : BitReader} {e : Edit Text}
    (h : Visits charset body w index r) (hmore : ¬ atEnd r)
    (hedit : readEdit charset w index r = .ok (e, r')) : Visits charset body w (index + 1) r'

variable {charset : Charset} {body : Bytes} {w : Widths} {index : Nat} {r : BitReader}

theorem steps_of_visits (h : Visits charset body w index r) :
    ∃ n, (BitReader.ofBytes body).Steps r n := by
  induction h with
  | header h => exact ⟨_, (steps_readWidths h).2⟩
  | turn h hmore hedit ih =>
    obtain ⟨n, hn⟩ := ih
    obtain ⟨e', -, -, hsteps⟩ := steps_readEdit hedit
    exact ⟨_, hn.trans hsteps⟩

/-- The loop never leaves the body. -/
theorem position_of_visits (h : Visits charset body w index r) : r.position ≤ 8 * body.length := by
  obtain ⟨n, hn⟩ := steps_of_visits h
  have hinside := hn.inside (BitReader.inside_ofBytes body)
  rw [BitReader.Inside, hn.bytes_eq] at hinside
  have hsize : (BitReader.ofBytes body).bytes.size = body.length := by
    simp [BitReader.ofBytes]
  omega

end Body

namespace Guarded

/-- The text that a body makes of the previous one, where unwrapping has led to a body. -/
def rebuild (charset : Charset) (unwrapped : Except DecodeError Bytes) (previous : Text) :
    Guarded DeltaError Text := do
  let body ← (of unwrapped).adapt DeltaError.decode
  let (_, patch) ← (decode charset body).adapt DeltaError.decode
  (apply patch previous).adapt DeltaError.apply

theorem rebuild_eq (charset : Charset) {unwrapped : Except DecodeError Bytes} {previous : Text}
    (hbody : ∀ body, unwrapped = .ok body → body.length < 1 <<< 61)
    (hprevious : previous.length < 1 <<< 61) :
    rebuild charset unwrapped previous = of (do
      let (_, patch) ← (unwrapped >>= Body.decode charset).mapError DeltaError.decode
      (patch.apply previous).mapError DeltaError.apply) := by
  cases unwrapped with
  | error e => rfl
  | ok body =>
    show ((decode charset body).adapt DeltaError.decode >>= fun x =>
      (apply x.2 previous).adapt DeltaError.apply) = _
    simp only [decode_eq charset (hbody body rfl), apply_eq _ hprevious, adapt_of]
    rw [of_bind]
    rfl

/-- No body, no payload in binary or in text form and no patch, whatever numbers it holds, leads to a
fault on any text: with all guards in place what comes out is what comes out without them. The loop
over the edits stays in the body and takes at least three bits a turn, and the cursor stays in the
previous text. -/
theorem rebuild_never_faults [Compressor] (codec : Codec) {previous : Text}
    (hprevious : previous.length < 1 <<< 61) :
    (∀ body : Bytes, body.length < 1 <<< 61 →
      rebuild codec.charset (.ok body) previous = of (do
        let (_, patch) ← (Body.decode codec.charset body).mapError .decode
        (patch.apply previous).mapError .apply)) ∧
    (∀ payload : Bytes, (∀ body, Envelope.unwrap payload = .ok body → body.length < 1 <<< 61) →
      rebuild codec.charset (Envelope.unwrap payload) previous =
        of (Delta.rebuild codec previous payload)) ∧
    (∀ payload : List Char,
      (∀ body, Envelope.unwrapText payload = .ok body → body.length < 1 <<< 61) →
      rebuild codec.charset (Envelope.unwrapText payload) previous = of (do
        let (_, patch) ← (codec.decodeText payload).mapError .decode
        (patch.apply previous).mapError .apply)) ∧
    (∀ patch : Patch, apply patch previous = of (patch.apply previous)) ∧
    (∀ (body : Bytes) (w : Widths) (index : Nat) (r : BitReader),
      Body.Visits codec.charset body w index r → r.position ≤ 8 * body.length ∧
        ∀ e r', Body.readEdit codec.charset w index r = .ok (e, r') →
          r.position + 3 ≤ r'.position) ∧
    ∀ (patch : Patch) (clips : Patch.Clipboard) (r : Patch.Rebuild),
      patch.foldlM (Patch.Rebuild.step previous.toArray clips) .start = .ok r →
        r.cursor ≤ previous.length := by
  refine ⟨fun body hbody => ?_, fun payload hbody => ?_, fun payload hbody => ?_,
    fun patch => apply_eq patch hprevious, fun body w index r h => ?_, fun patch clips r h => ?_⟩
  · refine rebuild_eq codec.charset (fun body' heq => ?_) hprevious
    rwa [← Except.ok.inj heq]
  · exact rebuild_eq codec.charset hbody hprevious
  · exact rebuild_eq codec.charset hbody hprevious
  · exact ⟨Body.position_of_visits h, fun e r' hedit => (Body.position_of_readEdit hedit).2⟩
  · exact Patch.cursor_foldlM h

/-- A body that is cut off in its second edit, a payload that is no deflate stream, one in text form
with an insert behind the output, and a patch that goes on after a whole text with a range at the
largest offset of a word. -/
theorem rebuild_never_faults_hostile :
    let codec : Codec := ⟨.utf8, false, 0⟩
    let previous : Text := [0x61, 0x62, 0x63]
    let payload := ['C', 'k', '/', 'T', 'Y', 'B', 'A', 'H', 'Q', 'A', 'g', 'F', 'h', 'w', '=', '=']
    previous.length < 1 <<< 61 ∧
      rebuild codec.charset (.ok [10, 79, 211, 96, 16, 7, 64, 8]) previous =
        of (.error (.decode (.truncated .operand (.endOfStream 9 3)))) ∧
      rebuild codec.charset (Envelope.unwrap [0x80, 0xFF]) previous =
        of (.error (.decode (.inflate .corrupt))) ∧
      rebuild codec.charset (Envelope.unwrapText payload) previous =
        of (.error (.apply (.targetBehindOutput 1 2))) ∧
      apply [.full [0x78], .delete 0xFFFFFFFFFFFFFFFF 1] previous =
        of (.error (.outOfBounds 0xFFFFFFFFFFFFFFFF 1 3)) := by
  intro codec previous payload
  have hprevious : previous.length < 1 <<< 61 := by decide
  have hunwrap : Envelope.unwrap [0x80, 0xFF] = .error (.inflate .corrupt) := by decide +kernel
  have hunwrapText : Envelope.unwrapText payload =
      .ok [10, 79, 211, 96, 16, 7, 64, 8, 5, 135] := by decide +kernel
  obtain ⟨hbodies, hpayloads, htexts, hpatches, -, -⟩ := rebuild_never_faults codec hprevious
  refine ⟨hprevious, (hbodies _ (by decide)).trans (congrArg of (by decide +kernel)),
    (hpayloads _ fun body h => ?_).trans (congrArg of (by decide +kernel)),
    (htexts _ fun body h => ?_).trans (congrArg of (by decide +kernel)),
    (hpatches _).trans (congrArg of (by decide +kernel))⟩
  · rw [hunwrap] at h
    cases h
  · rw [← Except.ok.inj (hunwrapText.symm.trans h)]
    decide

end Guarded
end EditHistory
