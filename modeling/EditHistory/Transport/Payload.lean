import EditHistory.Transport.Envelope
import EditHistory.Wire.Body

/-! Payloads: patches as bodies in envelopes, in binary or in text form. -/
namespace EditHistory
namespace Codec

variable [Compressor]

def encode (codec : Codec) (patch : Patch) : Except EncodeError Bytes :=
  return Envelope.wrap codec (← Body.encode codec.charset patch)

def decode (codec : Codec) (payload : Bytes) : Except DecodeError (Widths × Patch) := do
  Body.decode codec.charset (← Envelope.unwrap payload)

def encodeText (codec : Codec) (patch : Patch) : Except EncodeError (List Char) :=
  return Envelope.wrapText codec (← Body.encode codec.charset patch)

def decodeText (codec : Codec) (payload : List Char) : Except DecodeError (Widths × Patch) := do
  Body.decode codec.charset (← Envelope.unwrapText payload)

end Codec
end EditHistory
