import Adnl.Crypto.Envelope
import Mathlib.Logic.ExistsUnique
import Mathlib.Tactic.SplitIfs

/-! # Sealed data has one form

The checksum in front keys the cipher and is checked against what comes out. Data that opens
therefore names its own cipher, and sealing the message again goes through the same one.
-/
namespace Adnl.Envelope

@[simp] theorem apply_apply_params (c : CipherParams) (data : Bytes) :
    c.apply (c.apply data) = data := Keystream.apply_apply c.key c.iv data

/-- What has to stand in sealed data for it to open: the checksum of the message in front, and
behind it the message as the cipher of this checksum leaves it. -/
theorem parts_of_unlock {secret : Bytes32} {data plain : Bytes}
    (h : unlock secret data = .ok plain) :
    data.take 32 = (sha256 plain).toList ∧
      (CipherParams.derive secret (sha256 plain)).apply (data.drop 32) = plain := by
  unfold unlock at h
  split at h
  · cases h
  · rename_i checksum hsum
    dsimp only at h
    split_ifs at h with heq
    have hplain := Except.ok.inj h
    rw [hplain] at heq
    rw [← heq] at hplain hsum
    exact ⟨(Bytes.toList_of_toVector? hsum).symm, hplain⟩

theorem eq_lock_of_unlock {secret : Bytes32} {data plain : Bytes}
    (h : unlock secret data = .ok plain) : data = lock secret plain := by
  obtain ⟨hsum, hplain⟩ := parts_of_unlock h
  have hrest : data.drop 32 = (CipherParams.derive secret (sha256 plain)).apply plain := by
    rw [← apply_apply_params (CipherParams.derive secret (sha256 plain)) (data.drop 32), hplain]
  calc data = data.take 32 ++ data.drop 32 := (List.take_append_drop 32 data).symm
    _ = lock secret plain := by rw [hsum, hrest, lock]

theorem unlockWith_append {K : KeyScheme} {seed secret oneTime : Bytes32}
    (h : K.agree seed ⟨oneTime⟩ = .ok secret) (data : Bytes) :
    unlockWith K seed (oneTime.toList ++ lock secret data) = .ok data := by
  have hopen := unlock_lock secret data
  have hlock := length_lock secret data
  generalize lock secret data = sealedData at hopen hlock
  have hlength : ¬ (oneTime.toList ++ sealedData).length < addressedLength := by
    simp only [List.length_append, Vector.length_toList, hlock, addressedLength]
    omega
  have htake : (oneTime.toList ++ sealedData).take 32 = oneTime.toList := by simp
  have hdrop : (oneTime.toList ++ sealedData).drop 32 = sealedData := by simp
  rw [unlockWith, if_neg hlength, htake, Bytes.toVector?_toList, hdrop]
  simp only [h]
  exact hopen

theorem lock_injective (secret : Bytes32) : Function.Injective (lock secret) := by
  intro message other h
  have hopen := unlock_lock secret message
  rw [h, unlock_lock] at hopen
  exact (Except.ok.inj hopen).symm

/-- A secret pairs messages with the data that opens to them, one with one: data opens to a
message exactly if it is this message sealed, two messages are never sealed to the same data, and
no message has a second sealed form. -/
theorem unlock_eq_ok_iff (secret : Bytes32) :
    (∀ data message : Bytes, unlock secret data = .ok message ↔ data = lock secret message) ∧
      Function.Injective (lock secret) ∧
      ∀ message : Bytes, ∃! data : Bytes, unlock secret data = .ok message := by
  have hiff : ∀ data message : Bytes,
      unlock secret data = .ok message ↔ data = lock secret message := by
    intro data message
    constructor
    · exact eq_lock_of_unlock
    · intro h
      rw [h]
      exact unlock_lock secret message
  refine ⟨hiff, lock_injective secret, ?_⟩
  intro message
  simp only [hiff]
  exact existsUnique_eq

end Adnl.Envelope
