import Adnl.Crypto.Aes256

/-! AES-256 in counter mode: a keystream that is added to the data. -/
namespace Adnl.Keystream

/-- The big-endian counter block of a number below `2 ^ 128`. -/
def counterBlock (n : Nat) : Bytes16 := Vector.ofFn fun i => UInt8.ofNat (n >>> (8 * (15 - i.val)))

/-- The encryptions of `count` successive counters, wrapping at `2 ^ 128`. -/
def blocks (schedule : Aes256.Schedule) : Nat → Nat → Bytes
  | 0, _ => []
  | count + 1, n =>
    (Aes256.encrypt schedule (counterBlock n)).toList ++ blocks schedule count (n + 1)

/-- At least `length` bytes of keystream, a whole number of blocks. -/
def stream (key : Bytes32) (iv : Bytes16) (length : Nat) : Bytes :=
  blocks (Aes256.schedule key) ((length + 15) / 16) (Bytes.toNatBE iv.toList)

/-- Adds the keystream to the data. Encryption and decryption are this one operation. -/
def apply (key : Bytes32) (iv : Bytes16) (data : Bytes) : Bytes :=
  Bytes.xor data (stream key iv data.length)

theorem length_blocks (schedule : Aes256.Schedule) (count n : Nat) :
    (blocks schedule count n).length = 16 * count := by
  induction count generalizing n with
  | zero => rfl
  | succ count ih => simp [blocks, ih]; omega

theorem le_length_stream (key : Bytes32) (iv : Bytes16) (length : Nat) :
    length ≤ (stream key iv length).length := by
  rw [stream, length_blocks]
  omega

@[simp] theorem length_apply (key : Bytes32) (iv : Bytes16) (data : Bytes) :
    (apply key iv data).length = data.length := by
  have := le_length_stream key iv data.length
  simp only [apply, Bytes.length_xor]
  omega

@[simp] theorem apply_apply (key : Bytes32) (iv : Bytes16) (data : Bytes) :
    apply key iv (apply key iv data) = data := by
  have h := length_apply key iv data
  rw [apply, h, apply, Bytes.xor_xor_cancel (le_length_stream key iv data.length)]

end Adnl.Keystream
