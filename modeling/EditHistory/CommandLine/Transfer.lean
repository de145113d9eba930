import EditHistory.CommandLine.Options
import EditHistory.CommandLine.Outcome
import EditHistory.Delta

/-! The commands that carry a text over: one writes the payload that leads from one text to the
next, the other writes the text that a payload leads to. -/
namespace EditHistory
namespace CommandLine

variable [Compressor]

/-- The content of a payload file: the text form ends with a line feed. -/
def payloadContent (codec : Codec) (text : Bool) (patch : Patch) : Except EncodeError Bytes := do
  if text then return Utf8.ofChars ((← codec.encodeText patch) ++ ['\n'])
  else codec.encode patch

/-- Reads the content of a payload file. The text form is taken out of its envelope. -/
def readPayload (files : FileSystem) (text : Bool) (path : String) : Except String Bytes := do
  let bytes ← faultAt path (files.readBytes path)
  if !text then return bytes
  else
    let payload ← (Utf8.decodeChars bytes).mapError fun e => s!"{path}: {e.message}"
    (Envelope.unwrapText payload).mapError fun e => s!"{path}: {e.message}"

namespace DiffOptions

/-- What there is to say about a payload that was written. -/
structure Result where
  previousUnits : Nat
  currentUnits : Nat
  edits : Nat
  payload : Bytes
  content : Bytes

namespace Result

def isPacked (r : Result) : Bool := r.payload.head? == some Envelope.marker

def note (r : Result) : String :=
  s!"diff: {r.previousUnits} -> {r.currentUnits} units, payload {r.payload.length} bytes" ++
    (if r.isPacked then " (deflated)" else "")

def report (r : Result) : Json :=
  Json.object [("previous_units", .num r.previousUnits), ("current_units", .num r.currentUnits),
    ("parts", .num r.edits), ("payload_bytes", .num r.payload.length),
    ("written_bytes", .num r.content.length), ("compressed", .bool r.isPacked)]

end Result

/-- The payload between the two files. -/
def compute (d : DiffOptions) (files : FileSystem) : Except String Result := do
  let previous ← readRevision files d.previous
  let current ← readRevision files d.current
  let patch := Patch.between d.threshold previous current
  let payload ← (d.codec.encode patch).mapError fun e => s!"encode error: {e.message}"
  let content ← (payloadContent d.codec d.text patch).mapError fun e => s!"encode error: {e.message}"
  return ⟨previous.length, current.length, patch.length, payload, content⟩

def run (d : DiffOptions) (o : Options) (files : FileSystem) : Outcome :=
  let done := do
    let r ← d.compute files
    return (r, ← deliver files d.output o.force r.content)
  match done with
  | .error message => .failure files message
  | .ok (r, (after, output)) =>
    ⟨after, 0, output, (if o.isChatty then noteLine r.note else []) ++
      (if o.json then reportPage r.report else [])⟩

end DiffOptions

namespace ApplyOptions

/-- The text that the payload leads to. -/
def compute (a : ApplyOptions) (files : FileSystem) : Except String Text := do
  let previous ← readRevision files a.previous
  let payload ← readPayload files a.text a.payload
  (Delta.rebuild a.codec previous payload).mapError fun e => s!"apply error: {e.message}"

def run (a : ApplyOptions) (o : Options) (files : FileSystem) : Outcome :=
  let done := do
    let text ← a.compute files
    return (text, ← deliver files a.output o.force (Utf8.encodeLossy text))
  match done with
  | .error message => .failure files message
  | .ok (text, (after, output)) =>
    ⟨after, 0, output, if o.isChatty then noteLine s!"apply: output {text.length} units" else []⟩

end ApplyOptions

end CommandLine
end EditHistory
