import Adnl.Channel.Keys
import Mathlib.Tactic

/-! # The two directions of a channel

Both sides order their ids as byte strings, each with its own id first, so they see opposite orders
and take the shared secret and its reversal the other way round. What one side sends under is what
the other one receives under.
-/
namespace Adnl

namespace ShortId

theorem compare_swap (a b : ShortId) : compare b a = (compare a b).swap :=
  Std.OrientedOrd.eq_swap (α := List UInt8)

theorem compare_eq_iff {a b : ShortId} : compare a b = .eq ↔ a = b := by
  have hbytes : compare a b = .eq ↔ a.bytes.toList = b.bytes.toList :=
    Std.LawfulEqOrd.compare_eq_iff_eq (α := List UInt8)
  rw [hbytes, Vector.toList_inj]
  exact ⟨fun h => congrArg ShortId.mk h, fun h => congrArg ShortId.bytes h⟩

end ShortId

namespace ChannelKeys

def mirror (k : ChannelKeys) : ChannelKeys := ⟨k.decrypt, k.encrypt⟩

@[simp] theorem encrypt_mirror (k : ChannelKeys) : k.mirror.encrypt = k.decrypt := rfl

@[simp] theorem decrypt_mirror (k : ChannelKeys) : k.mirror.decrypt = k.encrypt := rfl

@[simp] theorem inId_mirror (k : ChannelKeys) : k.mirror.inId = k.outId := rfl

@[simp] theorem outId_mirror (k : ChannelKeys) : k.mirror.outId = k.inId := rfl

theorem derive_swap (secret : Bytes32) (own remote : ShortId) :
    derive secret remote own = (derive secret own remote).mirror := by
  rw [derive, derive, ShortId.compare_swap own remote]
  cases compare own remote <;> rfl

/-- The directions of one side share a key for a single id, and for a secret that reads the same
backwards. -/
theorem encrypt_eq_decrypt_iff {secret : Bytes32} {own remote : ShortId} :
    (derive secret own remote).encrypt = (derive secret own remote).decrypt ↔
      own = remote ∨ secret = secret.reverse := by
  rw [derive]
  by_cases heq : own = remote
  · have hsame : compare own remote = .eq := ShortId.compare_eq_iff.2 heq
    rw [hsame]
    exact iff_of_true rfl (.inl heq)
  · simp only [heq, false_or]
    cases h : compare own remote with
    | lt => exact eq_comm
    | eq => exact absurd (ShortId.compare_eq_iff.1 h) heq
    | gt => exact Iff.rfl

/-- Whatever the secret, the keys of two sides and the ids on their datagrams are mirror images, and
each side has one key per direction unless there is only one id or the secret is its own reversal. -/
theorem directions_mirror (secret : Bytes32) (a b : ShortId) :
    let keys := derive secret a b
    let others := derive secret b a
    keys.encrypt = others.decrypt ∧ keys.decrypt = others.encrypt ∧
      keys.outId = others.inId ∧ keys.inId = others.outId ∧
      (keys.encrypt = keys.decrypt ↔ a = b ∨ secret = secret.reverse) ∧
      (others.encrypt = others.decrypt ↔ a = b ∨ secret = secret.reverse) := by
  have hothers : derive secret b a = (derive secret a b).mirror := derive_swap secret a b
  refine ⟨?_, ?_, ?_, ?_, encrypt_eq_decrypt_iff, ?_⟩
  · rw [hothers, decrypt_mirror]
  · rw [hothers, encrypt_mirror]
  · rw [hothers, inId_mirror]
  · rw [hothers, outId_mirror]
  · rw [encrypt_eq_decrypt_iff, eq_comm (a := b)]

/-- A secret of one byte repeated keeps no directions apart. -/
example : derive (.replicate 32 7) ⟨.replicate 32 1⟩ ⟨.replicate 32 2⟩ =
    ⟨.replicate 32 7, .replicate 32 7⟩ := by decide +kernel

end ChannelKeys

end Adnl
