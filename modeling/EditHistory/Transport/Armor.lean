import EditHistory.Transport.Base64

/-! The characters behind payloads in text form. Any pair of writing and reading will do as long as the one
undoes the other and what is written can be told from white space and from the mark of a packed payload;
base64 is what is used where nothing else is given. -/
namespace EditHistory

class Armor where
  /-- Writes bytes in visible characters. -/
  encode (bytes : Bytes) : Bytes
  decode (symbols : Bytes) : Except Base64.Fault Bytes

instance base64Armor : Armor := ⟨Base64.encode, Base64.decode⟩

end EditHistory
