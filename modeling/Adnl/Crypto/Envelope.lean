import Adnl.Crypto.KeyScheme
import Adnl.Crypto.Keystream
import Adnl.Crypto.Sha256

/-!
The two encrypted envelopes.

Sealed data authenticates itself: the hash of the plain data is sent in the clear and also keys the
cipher. An addressed envelope is a one-time public key followed by data sealed under the secret
that this key and the recipient's key agree on.
-/
namespace Adnl

/-- The constructor id, as bytes, under which symmetric keys are hashed. -/
def symmetricKeyTag : Bytes := [0x2a, 0x28, 0x6d, 0xd7]

def symmetricKeyId (key : Bytes32) : Bytes32 := sha256 (symmetricKeyTag ++ key.toList)

structure CipherParams where
  key : Bytes32
  iv : Bytes16
deriving DecidableEq, Repr

namespace CipherParams

/-- The key mixes the first half of the secret with the second half of the checksum, the counter
the first four bytes of the checksum with the last twelve of the secret. -/
def derive (secret checksum : Bytes32) : CipherParams where
  key := (secret.extract 0 16 ++ checksum.extract 16 32).cast (by decide)
  iv := (checksum.extract 0 4 ++ secret.extract 20 32).cast (by decide)

def apply (c : CipherParams) (data : Bytes) : Bytes := Keystream.apply c.key c.iv data

end CipherParams

namespace Envelope

def checksumLength : Nat := 32

def addressedLength : Nat := 32 + checksumLength

/-- The checksum, then the encrypted data. -/
def lock (secret : Bytes32) (data : Bytes) : Bytes :=
  let checksum := sha256 data
  checksum.toList ++ (CipherParams.derive secret checksum).apply data

/-- Decrypts sealed data and compares its checksum. -/
def unlock (secret : Bytes32) (data : Bytes) : Except CryptoError Bytes :=
  match Bytes.toVector? 32 (data.take 32) with
  | none => .error (.truncated data.length checksumLength)
  | some checksum =>
    let plain := (CipherParams.derive secret checksum).apply (data.drop 32)
    if sha256 plain = checksum then .ok plain else .error .checksumMismatch

/-- Encrypts so that the owner of the recipient key can read it. The one-time seed must be fresh. -/
def lockFor (K : KeyScheme) (oneTime : Bytes32) (recipient : PublicKey) (data : Bytes) :
    Except CryptoError Bytes := do
  let secret ← K.agree oneTime recipient
  return (K.publicKey oneTime).bytes.toList ++ lock secret data

/-- Opens an addressed envelope with the recipient's seed. -/
def unlockWith (K : KeyScheme) (seed : Bytes32) (data : Bytes) : Except CryptoError Bytes :=
  if data.length < addressedLength then .error (.truncated data.length addressedLength)
  else
    match Bytes.toVector? 32 (data.take 32) with
    | none => .error (.truncated data.length addressedLength)
    | some oneTime => do
      let secret ← K.agree seed ⟨oneTime⟩
      unlock secret (data.drop 32)

theorem length_lock (secret : Bytes32) (data : Bytes) :
    (lock secret data).length = checksumLength + data.length := by
  simp [lock, checksumLength, CipherParams.apply]

theorem unlock_lock (secret : Bytes32) (data : Bytes) :
    unlock secret (lock secret data) = .ok data := by
  have h : (lock secret data).take 32 = (sha256 data).toList := by simp [lock]
  have h' : (lock secret data).drop 32 =
      (CipherParams.derive secret (sha256 data)).apply data := by simp [lock]
  simp [unlock, h, h', Bytes.toVector?_toList, CipherParams.apply]

end Envelope

end Adnl
