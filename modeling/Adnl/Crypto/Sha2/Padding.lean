import Adnl.Bytes

/-! Message padding of the SHA-2 hashes. -/
namespace Adnl.Sha2

/-- The message followed by a one bit, the least number of zero bits and the length in bits as
`lengthBytes` big-endian bytes, so that a whole number of blocks results. -/
def pad (blockBytes lengthBytes : Nat) (m : Bytes) : Bytes :=
  let zeros := (blockBytes - (m.length + 1 + lengthBytes) % blockBytes) % blockBytes
  m ++ 0x80 :: (List.replicate zeros 0 ++ Bytes.ofNatBE lengthBytes (8 * m.length))

end Adnl.Sha2
