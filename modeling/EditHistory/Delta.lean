import EditHistory.Patch.Between
import EditHistory.Transport.Payload

/-! Deltas: a payload that holds the difference between two texts, and the way back. -/
namespace EditHistory

inductive DeltaError where
  | decode (error : DecodeError)
  | apply (error : ApplyError)
deriving DecidableEq, Repr

def DeltaError.message : DeltaError → String
  | .decode error => error.message
  | .apply error => error.message

namespace Delta

variable [Compressor]

/-- Appends the payload that leads from one text to the next to the output that the caller holds. -/
def write (codec : Codec) (threshold : Nat) (previous current : Text) :
    ExceptT EncodeError (StateM Bytes) Unit := do
  let payload ← MonadExcept.ofExcept (codec.encode (Patch.between threshold previous current))
  modify (· ++ payload)

/-- The output after a write that succeeds. -/
def append (codec : Codec) (threshold : Nat) (previous current : Text) (output : Bytes) :
    Except EncodeError Bytes :=
  match (write codec threshold previous current).run.run output with
  | (.ok (), output) => .ok output
  | (.error e, _) => .error e

/-- The text that a payload makes of the previous one. -/
def rebuild (codec : Codec) (previous : Text) (payload : Bytes) : Except DeltaError Text := do
  let (_, patch) ← (codec.decode payload).mapError .decode
  (patch.apply previous).mapError .apply

end Delta
end EditHistory
