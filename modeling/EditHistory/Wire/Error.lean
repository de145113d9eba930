import EditHistory.Text.Charset
import EditHistory.Transport.Base64
import EditHistory.Transport.Inflate
import EditHistory.Wire.Bits

/-! What can go wrong when patches are written and read. -/
namespace EditHistory

/-- The numbers that edits carry. -/
inductive Field where
  | start
  | length
  | block
  | textLength
deriving DecidableEq, Repr

def Field.name : Field → String
  | .start => "start"
  | .length => "length"
  | .block => "block id"
  | .textLength => "text length"

inductive EncodeError where
  | fieldOverflow (field : Field) (value : Nat)
  /-- The text of the edit at `index` has no form in the charset. -/
  | unencodableText (index : Nat) (charset : Charset)
  | bits (error : BitError)
deriving DecidableEq, Repr

def EncodeError.message : EncodeError → String
  | .fieldOverflow field value => s!"{field.name} value {value} exceeds the 31-bit field ceiling"
  | .unencodableText index charset =>
    s!"part {index} holds text that {charset.name} cannot encode"
  | .bits error => s!"bit writer: {error.message}"

/-- What a body is cut off in. -/
inductive Context where
  | header
  | action
  | operand
  | text
deriving DecidableEq, Repr

def Context.name : Context → String
  | .header => "header"
  | .action => "action"
  | .operand => "operand"
  | .text => "text"

inductive DecodeError where
  | empty
  | truncated (context : Context) (error : BitError)
  | invalidMarker (code : Nat)
  | unknownAction (code position : Nat)
  | invalidText (index : Nat) (fault : Charset.Fault)
  | inflate (fault : Huffman.Fault)
  | base64 (fault : Base64.Fault)
deriving DecidableEq, Repr

def DecodeError.message : DecodeError → String
  | .empty => "empty payload"
  | .truncated context error => s!"truncated {context.name}: {error.message}"
  | .invalidMarker code => s!"expected codec marker, found action code {code}"
  | .unknownAction code position => s!"unrecognized action code {code} at bit {position}"
  | .invalidText index fault => s!"invalid text in part {index}: {fault.message}"
  | .inflate fault => s!"inflate failed: {Inflate.Fault.message fault}"
  | .base64 fault => s!"invalid base64 transport: {fault.message}"

end EditHistory
