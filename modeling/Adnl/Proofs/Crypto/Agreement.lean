import Adnl.Proofs.Crypto.Sealing
import Adnl.Proofs.Sending.Signed

/-! # Two owners agree

A seed is hashed and clamped in two places: as a number for the public key, and as bytes for the
agreement, where multiplication clamps once more. All of it is the same scalar. Both owners
therefore come to the same point, and an envelope that one of them makes opens for the other.
-/
namespace Adnl

theorem clamp_clamp (n : Nat) : clamp (clamp n) = clamp n := by
  simp only [clamp, Nat.pow_eq, Nat.reducePow]
  omega

theorem toNat_and_248 (x : UInt8) : (x &&& 248).toNat = x.toNat / 8 * 8 := by
  have h : ∀ n < 256, n &&& 248 = n / 8 * 8 := by decide +kernel
  exact h x.toNat x.toNat_lt

theorem toNat_and_127_or_64 (x : UInt8) : (x &&& 127 ||| 64).toNat = x.toNat % 64 + 64 := by
  have h : ∀ n < 256, n &&& 127 ||| 64 = n % 64 + 64 := by decide +kernel
  exact h x.toNat x.toNat_lt

theorem toNatLE_set_ends {l : Bytes} (h : l.length = 32) (x y : UInt8) :
    Bytes.toNatLE ((l.set 0 x).set 31 y) =
      x.toNat + Bytes.toNatLE l % Nat.pow 256 31 / 256 * 256 + Nat.pow 256 31 * y.toNat := by
  have hfirst : 0 < l.length := by omega
  have hlast : 31 < (l.set 0 x).length := by simp [h]
  have hsetFirst := Bytes.toNatLE_set hfirst x
  have hsetLast := Bytes.toNatLE_set hlast y
  have hlt := Bytes.toNatLE_lt l
  rw [Bytes.toNat_getElem] at hsetFirst
  rw [List.getElem_set_ne (by decide), Bytes.toNat_getElem] at hsetLast
  simp only [h, Nat.pow_eq, Nat.reducePow] at *
  omega

/-- What the masks do to the outer bytes is what clamping does to the number. -/
theorem toNatLE_clampBytes (b : Bytes32) :
    Bytes.toNatLE (clampBytes b).toList = clamp (Bytes.toNatLE b.toList) := by
  have houter : clampBytes b = (b.set 0 (b[0] &&& 248)).set 31 (b[31] &&& 127 ||| 64) := by
    ext i hi
    rw [clampBytes, Vector.getElem_mapIdx, Vector.getElem_set, Vector.getElem_set]
    split_ifs <;> grind
  have hlen : b.toList.length = 32 := b.length_toList
  have hlt := Bytes.toNatLE_lt b.toList
  have hfirst : b[0].toNat = Bytes.toNatLE b.toList % 256 := by
    rw [← Vector.getElem_toList (by omega), Bytes.toNat_getElem, Nat.pow_eq, pow_zero,
      Nat.div_one]
  have hlast : b[31].toNat = Bytes.toNatLE b.toList / Nat.pow 256 31 % 256 := by
    rw [← Vector.getElem_toList (by omega), Bytes.toNat_getElem]
  rw [houter, Vector.toList_set, Vector.toList_set, toNatLE_set_ends hlen, toNat_and_248,
    toNat_and_127_or_64, hfirst, hlast]
  simp only [hlen, clamp, Nat.pow_eq, Nat.reducePow] at *
  omega

/-- The scalar that agreement takes out of a seed is the one behind its public key. -/
theorem clamp_agreementScalar (seed : Bytes32) :
    clamp (Bytes.toNatLE (agreementScalar seed).toList) = (ExpandedSeed.ofSeed seed).scalar := by
  rw [agreementScalar, toNatLE_clampBytes, clamp_clamp]
  simp [ExpandedSeed.ofSeed, Vector.toList, List.extract_eq_take_drop]

namespace Curve

/-- The multiples of the base point commute and are read back as they are written, and to multiply
one of them by a clamped scalar is to multiply its Montgomery coordinate by these bytes. -/
structure Exchanges (C : Curve) : Prop where
  mul_comm : ∀ m n, C.mul m (C.mul n C.base) = C.mul n (C.mul m C.base)
  decompress : ∀ n, C.decompress (C.compress (C.mul n C.base)) = some (C.mul n C.base)
  toMontgomery_mul : ∀ (scalar : Bytes32) (n : Nat),
    C.toMontgomery (C.mul (clamp (Bytes.toNatLE scalar.toList)) (C.mul n C.base)) =
      C.mulClamped scalar (C.toMontgomery (C.mul n C.base))

def common (C : Curve) (a b : Bytes32) : C.Point :=
  C.mul (ExpandedSeed.ofSeed a).scalar (C.mul (ExpandedSeed.ofSeed b).scalar C.base)

/-- The same curve with its points and its coordinates written in other bytes. -/
def recode (C : Curve) (points coordinates : Equiv.Perm Bytes32) : Curve :=
  { C with
    compress := fun P => points (C.compress P)
    decompress := fun b => C.decompress (points.symm b)
    toMontgomery := fun P => coordinates (C.toMontgomery P)
    ladder := fun n u => coordinates (C.ladder n (coordinates.symm u)) }

section
variable {C : Curve} (h : C.Exchanges) (a b : Bytes32)
include h

theorem Exchanges.common_comm : C.common a b = C.common b a := h.mul_comm _ _

/-- Nothing but the common point decides what is agreed on. -/
theorem Exchanges.agree_publicKey :
    C.agree a (C.publicKey b) =
      if C.toMontgomery (C.common a b) = Vector.replicate 32 0 then .error .weakKey
      else .ok (C.toMontgomery (C.common a b)) := by
  have hcommon : C.toMontgomery (C.common a b) =
      C.mulClamped (agreementScalar a)
        (C.toMontgomery (C.mul (ExpandedSeed.ofSeed b).scalar C.base)) := by
    rw [← h.toMontgomery_mul, clamp_agreementScalar]
    rfl
  simp only [agree, publicKey, h.decompress, ← hcommon]

theorem Exchanges.agree_comm : C.agree a (C.publicKey b) = C.agree b (C.publicKey a) := by
  rw [h.agree_publicKey, h.agree_publicKey, h.common_comm]

theorem Exchanges.agree_cases :
    (∃ secret, C.agree a (C.publicKey b) = .ok secret) ∨
      C.agree a (C.publicKey b) = .error .weakKey := by
  rw [h.agree_publicKey]
  split
  · exact .inr rfl
  · exact .inl ⟨_, rfl⟩

theorem Exchanges.recode (points coordinates : Equiv.Perm Bytes32) :
    (C.recode points coordinates).Exchanges where
  mul_comm := h.mul_comm
  decompress n := by
    change C.decompress (points.symm (points (C.compress (C.mul n C.base)))) = _
    rw [Equiv.symm_apply_apply]
    exact h.decompress n
  toMontgomery_mul scalar n := by
    simp only [mulClamped, Curve.recode, Equiv.symm_apply_apply]
    exact congrArg coordinates (h.toMontgomery_mul scalar n)

end

theorem exchanges_additive : additive.Exchanges where
  mul_comm m n := by
    change (m : ZMod Curve25519.order) * (n * 1) = n * (m * 1)
    ring
  decompress := complete_additive.decompress
  toMontgomery_mul scalar n := by
    simp only [mulClamped, additive, Curve25519.scalarOf_scalarBytes]

end Curve

namespace Envelope

variable {K : KeyScheme} {seed oneTime : Bytes32} {recipient : PublicKey} {data message : Bytes}

theorem eq_of_lockFor (h : lockFor K oneTime recipient message = .ok data) :
    ∃ secret, K.agree oneTime recipient = .ok secret ∧
      data = (K.publicKey oneTime).bytes.toList ++ lock secret message := by
  unfold lockFor at h
  cases hsecret : K.agree oneTime recipient with
  | error e =>
    rw [hsecret] at h
    cases h
  | ok secret =>
    rw [hsecret] at h
    exact ⟨secret, rfl, (Except.ok.inj h).symm⟩

theorem eq_of_unlockWith (h : unlockWith K seed data = .ok message) :
    ∃ key secret : Bytes32, K.agree seed ⟨key⟩ = .ok secret ∧
      data = key.toList ++ lock secret message := by
  unfold unlockWith at h
  split at h
  · cases h
  split at h
  · cases h
  rename_i key hkey
  cases hsecret : K.agree seed ⟨key⟩ with
  | error e =>
    rw [hsecret] at h
    cases h
  | ok secret =>
    rw [hsecret] at h
    refine ⟨key, secret, hsecret, ?_⟩
    rw [← eq_lock_of_unlock h, Bytes.toList_of_toVector? hkey, List.take_append_drop]

theorem unlockWith_eq_ok_iff (K : KeyScheme) (seed : Bytes32) (data message : Bytes) :
    unlockWith K seed data = .ok message ↔
      ∃ key secret : Bytes32, K.agree seed ⟨key⟩ = .ok secret ∧
        data = key.toList ++ lock secret message := by
  constructor
  · exact eq_of_unlockWith
  · rintro ⟨key, secret, hsecret, rfl⟩
    exact unlockWith_append hsecret message

end Envelope

namespace Curve

open Envelope

def ones : Bytes32 := .replicate 32 1

def twos : Bytes32 := .replicate 32 2

/-- Scalars in place of a curve, but with the keys and the common coordinate that the real curve
gives the two owners. -/
def likeness : Curve :=
  additive.recode
    (Equiv.swap (additive.publicKey ones).bytes (curve25519.publicKey ones).bytes *
      Equiv.swap (additive.publicKey twos).bytes (curve25519.publicKey twos).bytes)
    (Equiv.swap (additive.toMontgomery (additive.common ones twos))
      (curve25519.toMontgomery (curve25519.common ones twos)))

theorem exchanges_likeness : likeness.Exchanges := exchanges_additive.recode _ _

theorem likeness_eq_ed25519 :
    likeness.keyScheme.publicKey ones = ed25519.publicKey ones ∧
      likeness.keyScheme.publicKey twos = ed25519.publicKey twos ∧
      likeness.keyScheme.agree ones (ed25519.publicKey twos) =
        ed25519.agree ones (ed25519.publicKey twos) ∧
      ed25519.agree ones (ed25519.publicKey twos) ≠ .error .weakKey := by
  decide +kernel

/-- Two owners come to the same result from each other's keys, which is a secret or that the key is
weak. What is addressed to one of them opens to what was put in. And data opens to a message exactly
if it is a key and behind it this message, sealed under the secret agreed on with this key. -/
theorem envelope_reaches_owner {C : Curve} (hC : C.Exchanges) :
    (∀ a b : Bytes32,
        C.keyScheme.agree a (C.keyScheme.publicKey b) =
          C.keyScheme.agree b (C.keyScheme.publicKey a) ∧
        ((∃ secret, C.keyScheme.agree a (C.keyScheme.publicKey b) = .ok secret) ∨
          C.keyScheme.agree a (C.keyScheme.publicKey b) = .error .weakKey)) ∧
      (∀ (seed oneTime : Bytes32) (message data : Bytes),
        lockFor C.keyScheme oneTime (C.keyScheme.publicKey seed) message = .ok data →
          unlockWith C.keyScheme seed data = .ok message) ∧
      ∀ (seed : Bytes32) (data message : Bytes),
        unlockWith C.keyScheme seed data = .ok message ↔
          ∃ key secret : Bytes32, C.keyScheme.agree seed ⟨key⟩ = .ok secret ∧
            data = key.toList ++ lock secret message := by
  refine ⟨fun a b => ⟨hC.agree_comm a b, hC.agree_cases a b⟩,
    fun seed oneTime message data h => ?_, unlockWith_eq_ok_iff C.keyScheme⟩
  obtain ⟨secret, hsecret, rfl⟩ := eq_of_lockFor h
  refine unlockWith_append ?_ message
  rw [← hsecret]
  exact hC.agree_comm seed oneTime

/-- The other owner's secret is the real one as well, and the envelope opens. -/
theorem envelope_reaches_owner_likeness :
    likeness.keyScheme.agree twos (ed25519.publicKey ones) =
        ed25519.agree ones (ed25519.publicKey twos) ∧
      ∃ data, lockFor likeness.keyScheme twos (ed25519.publicKey ones) [3, 4] = .ok data ∧
        unlockWith likeness.keyScheme ones data = .ok [3, 4] := by
  obtain ⟨hcomm, hopens, -⟩ := envelope_reaches_owner exchanges_likeness
  obtain ⟨hones, htwos, hagree, hstrong⟩ := likeness_eq_ed25519
  obtain ⟨hsame, hcases⟩ := hcomm ones twos
  rw [hones, htwos, hagree] at hsame
  rw [htwos, hagree, or_iff_left hstrong] at hcases
  obtain ⟨secret, hsecret⟩ := hcases
  have hlock : lockFor likeness.keyScheme twos (ed25519.publicKey ones) [3, 4] =
      .ok ((likeness.keyScheme.publicKey twos).bytes.toList ++ lock secret [3, 4]) := by
    rw [lockFor, ← hsame, hsecret]
    rfl
  refine ⟨hsame.symm, _, hlock, ?_⟩
  rw [← hones] at hlock
  exact hopens ones twos _ _ hlock

end Curve

end Adnl
