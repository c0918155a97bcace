import Adnl.Bytes

/-! Writing: little-endian words, fixed byte arrays and padded byte strings. -/
namespace Adnl.Tl

/-- Size of a written byte string: one or four bytes of length, the content, and padding to a
multiple of four. -/
def bytesLength (length : Nat) : Nat :=
  ((if length < 254 then 1 else 4) + length + 3) / 4 * 4

def u32 (w : UInt32) : Bytes := Bytes.ofNatLE 4 w.toNat

def u64 (w : UInt64) : Bytes := Bytes.ofNatLE 8 w.toNat

/-- Signed words are written as their two's complement. -/
def i32 (w : Int32) : Bytes := u32 w.toUInt32

/-- The length in front of a byte string: one byte below 254, else 254 and three bytes. -/
def lengthBytes (length : Nat) : Bytes :=
  if length < 254 then [UInt8.ofNat length] else 254 :: Bytes.ofNatLE 3 length

/-- A byte string with its length in front, padded with zeros. -/
def byteString (data : Bytes) : Bytes :=
  let head := lengthBytes data.length
  head ++ (data ++
    List.replicate (bytesLength data.length - head.length - data.length) 0)

@[simp] theorem length_u32 (w : UInt32) : (u32 w).length = 4 := by simp [u32]

@[simp] theorem length_u64 (w : UInt64) : (u64 w).length = 8 := by simp [u64]

@[simp] theorem length_i32 (w : Int32) : (i32 w).length = 4 := by simp [i32]

theorem length_lengthBytes (length : Nat) :
    (lengthBytes length).length = if length < 254 then 1 else 4 := by
  unfold lengthBytes; split <;> simp

@[simp] theorem length_byteString (data : Bytes) :
    (byteString data).length = bytesLength data.length := by
  simp only [byteString, List.length_append, List.length_replicate, length_lengthBytes, bytesLength]
  split <;> omega

end Adnl.Tl
