import EditHistory.CommandLine.Options
import EditHistory.CommandLine.Outcome
import EditHistory.Transport.Payload

/-! Listing the edits of a payload. -/
namespace EditHistory
namespace CommandLine

variable [Compressor]

/-- A number with blanks in front of it up to a width. -/
def alignRight (width n : Nat) : String :=
  let digits := toString n
  String.ofList (List.replicate (width - digits.length) ' ') ++ digits

def editLine (index : Nat) (e : Edit Text) : String :=
  alignRight 5 index ++ "  " ++
    match e with
    | .full text => s!"full     units={text.length}"
    | .insert start text => s!"insert   start={start} units={text.length}"
    | .delete start length => s!"delete   start={start} length={length}"
    | .replace start length text =>
      s!"replace  start={start} length={length} units={text.length}"
    | .cut start length block => s!"cut      start={start} length={length} block={block}"
    | .paste start block => s!"paste    start={start} block={block}"

def editJson : Edit Text → Json
  | .full text => Json.object [("action", .str "full"), ("text", .str text.toStringLossy)]
  | .insert start text =>
    Json.object [("action", .str "insert"), ("start", .num start), ("text", .str text.toStringLossy)]
  | .delete start length =>
    Json.object [("action", .str "delete"), ("start", .num start), ("length", .num length)]
  | .replace start length text =>
    Json.object [("action", .str "replace"), ("start", .num start), ("length", .num length),
      ("text", .str text.toStringLossy)]
  | .cut start length block =>
    Json.object [("action", .str "cut"), ("start", .num start), ("length", .num length),
      ("block", .num block)]
  | .paste start block =>
    Json.object [("action", .str "paste"), ("start", .num start), ("block", .num block)]

def widthsJson (w : Widths) : Json :=
  Json.object [("start_bits", .num w.start), ("length_bits", .num w.length),
    ("block_bits", .num w.block), ("text_bits", .num w.text)]

/-- What a payload holds. -/
structure Listing where
  isPacked : Bool
  widths : Widths
  patch : Patch

namespace Listing

def report (l : Listing) : Json :=
  Json.object [("compressed", .bool l.isPacked), ("codec_data", widthsJson l.widths),
    ("parts", .arr (l.patch.map editJson))]

def lines (l : Listing) : List String :=
  [s!"codec data:  {l.widths.summary}", "compressed:  " ++ (if l.isPacked then "yes" else "no"),
    s!"parts:       {l.patch.length}"] ++ l.patch.mapIdx editLine

def page (l : Listing) : String := String.join (l.lines.map fun line => line ++ "\n")

end Listing

namespace InspectOptions

/-- The first byte of a packed payload file. -/
def packedMark (i : InspectOptions) : UInt8 :=
  if i.text then Envelope.textMarker.toNat.toUInt8 else Envelope.marker

def decode (i : InspectOptions) (bytes : Bytes) : Except String (Widths × Patch) :=
  if i.text then do
    let payload ← (Utf8.decodeChars bytes).mapError Utf8.Fault.message
    (i.codec.decodeText payload).mapError DecodeError.message
  else (i.codec.decode bytes).mapError DecodeError.message

/-- Decodes the payload file. -/
def compute (i : InspectOptions) (files : FileSystem) : Except String Listing := do
  let bytes ← faultAt i.payload (files.readBytes i.payload)
  let (widths, patch) ← (i.decode bytes).mapError fun message => s!"invalid payload: {message}"
  return ⟨bytes.head? == some i.packedMark, widths, patch⟩

def run (i : InspectOptions) (o : Options) (files : FileSystem) : Outcome :=
  match i.compute files with
  | .error message => .failure files message
  | .ok listing =>
    ⟨files, 0, if o.json then reportPage listing.report else Utf8.ofString listing.page, []⟩

end InspectOptions

end CommandLine
end EditHistory
