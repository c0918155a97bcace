import Adnl.Bytes
import Adnl.Crypto.Error

/-! The public-key operations that identities and channels are built on. -/
namespace Adnl

structure PublicKey where
  bytes : Bytes32
deriving DecidableEq, Repr

/-- Signing and key agreement. A private key is its thirty-two byte seed. -/
structure KeyScheme where
  publicKey : Bytes32 → PublicKey
  sign : Bytes32 → Bytes → Bytes
  verify : PublicKey → Bytes → Bytes → Except CryptoError Unit
  agree : Bytes32 → PublicKey → Except CryptoError Bytes32

end Adnl
