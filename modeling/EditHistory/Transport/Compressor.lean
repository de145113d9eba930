import EditHistory.Transport.Deflate

/-! The compressor behind packed payloads. Any pair of packing and unpacking will do as long as the
one undoes the other; deflate streams are what is used where nothing else is given. -/
namespace EditHistory

class Compressor where
  /-- Packs bytes, the harder the higher the level. -/
  pack (level : Nat) (bytes : Bytes) : Bytes
  unpack (packed : Bytes) : Except Huffman.Fault Bytes

instance deflateCompressor : Compressor := ⟨deflate, inflate⟩

end EditHistory
