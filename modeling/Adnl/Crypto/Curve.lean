import Adnl.Crypto.KeyScheme
import Adnl.Crypto.Sha512

/-!
Signing and key agreement over a curve that has an Edwards form for signatures and a Montgomery
form for agreement.
-/
namespace Adnl

/-- The operations of a curve. Scalars are natural numbers. -/
structure Curve where
  Point : Type
  base : Point
  order : Nat
  mul : Nat → Point → Point
  sub : Point → Point → Point
  compress : Point → Bytes32
  decompress : Bytes32 → Option Point
  /-- The coordinate on the Montgomery form. -/
  toMontgomery : Point → Bytes32
  /-- Scalar multiplication on Montgomery coordinates. -/
  ladder : Nat → Bytes32 → Bytes32

/-- The two halves of a hashed seed: the scalar and the key of the deterministic nonce. -/
structure ExpandedSeed where
  scalar : Nat
  nonceKey : Bytes

/-- Clears the low three bits and the top bit of 256 and sets the next one. -/
def clamp (n : Nat) : Nat := n % Nat.pow 2 254 / 8 * 8 + Nat.pow 2 254

def ExpandedSeed.ofSeed (seed : Bytes32) : ExpandedSeed :=
  let h := (sha512 seed.toList).toList
  ⟨clamp (Bytes.toNatLE (h.take 32)), h.drop 32⟩

/-- Clears the low three bits of the first byte and the top bit of the last one, and sets the bit
below that. -/
def clampBytes (b : Bytes32) : Bytes32 :=
  b.mapIdx fun i x => if i = 0 then x &&& 248 else if i = 31 then x &&& 127 ||| 64 else x

/-- The scalar for key agreement, as bytes: the first half of the hashed seed. -/
def agreementScalar (seed : Bytes32) : Bytes32 :=
  clampBytes (((sha512 seed.toList).extract 0 32).cast (by decide))

namespace Curve

variable (C : Curve)

/-- Scalar multiplication on Montgomery coordinates by bytes, whatever their outer bits are. -/
def mulClamped (scalar u : Bytes32) : Bytes32 := C.ladder (clamp (Bytes.toNatLE scalar.toList)) u

def publicKey (seed : Bytes32) : PublicKey :=
  ⟨C.compress (C.mul (ExpandedSeed.ofSeed seed).scalar C.base)⟩

def hashScalar (parts : Bytes) : Nat := Bytes.toNatLE (sha512 parts).toList % C.order

/-- Thirty-two bytes of commitment, then thirty-two of response. -/
def sign (seed : Bytes32) (m : Bytes) : Bytes :=
  let key := ExpandedSeed.ofSeed seed
  let nonce := C.hashScalar (key.nonceKey ++ m)
  let commitment := (C.compress (C.mul nonce C.base)).toList
  let challenge := C.hashScalar (commitment ++ (C.publicKey seed).bytes.toList ++ m)
  commitment ++ Bytes.ofNatLE 32 ((nonce + challenge * key.scalar) % C.order)

/--
Recomputes the commitment and compares encodings. The response has to be reduced; the key may be
of small order or have more than one encoding.
-/
def verify (key : PublicKey) (m signature : Bytes) : Except CryptoError Unit :=
  match C.decompress key.bytes with
  | none => .error (.invalidKey .unreadable)
  | some A =>
    let commitment := signature.take 32
    let response := Bytes.toNatLE (signature.drop 32)
    if signature.length = 64 ∧ response < C.order then
      let challenge := C.hashScalar (commitment ++ key.bytes.toList ++ m)
      if (C.compress (C.sub (C.mul response C.base) (C.mul challenge A))).toList = commitment
      then .ok () else .error .invalidSignature
    else .error .invalidSignature

def agree (seed : Bytes32) (other : PublicKey) : Except CryptoError Bytes32 :=
  match C.decompress other.bytes with
  | none => .error (.invalidKey .offCurve)
  | some P =>
    let shared := C.mulClamped (agreementScalar seed) (C.toMontgomery P)
    if shared = Vector.replicate 32 0 then .error .weakKey else .ok shared

def keyScheme : KeyScheme where
  publicKey := C.publicKey
  sign := C.sign
  verify := C.verify
  agree := C.agree

end Curve

end Adnl
