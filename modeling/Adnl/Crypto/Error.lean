/-! What can be wrong with keys, signatures and sealed data. -/
namespace Adnl

/-- Why key bytes are refused. -/
inductive KeyFault
  /-- A signature is checked against bytes that encode no point. -/
  | unreadable
  /-- A secret is agreed with bytes that encode no point. -/
  | offCurve
deriving DecidableEq, Repr

inductive CryptoError
  | invalidKey (fault : KeyFault)
  | invalidSignature
  /-- Key agreement gave the all-zero secret. -/
  | weakKey
  /-- Shorter than the fixed part of the envelope. -/
  | truncated (length least : Nat)
  | checksumMismatch
deriving DecidableEq, Repr

def KeyFault.message : KeyFault → String
  | .unreadable => "signature error: Cannot decompress Edwards point"
  | .offCurve => "not a curve point"

def CryptoError.message : CryptoError → String
  | .invalidKey fault => "Invalid key: " ++ fault.message
  | .invalidSignature => "Invalid signature"
  | .weakKey => "Weak key detected (low-order point)"
  | .truncated length least => s!"Ciphertext too short: {length} bytes (min: {least})"
  | .checksumMismatch => "Checksum mismatch"

end Adnl
