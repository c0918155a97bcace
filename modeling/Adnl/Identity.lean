import Adnl.Crypto.KeyScheme
import Adnl.Crypto.Sha256

/-! Names of identities: the hash of a public key, and the texts that show it. -/
namespace Adnl

/-- The 256-bit name of an identity or of one direction of a channel. -/
structure ShortId where
  bytes : Bytes32
deriving DecidableEq, Repr

namespace ShortId

/-- Ids are ordered as byte strings. -/
instance : Ord ShortId where
  compare a b := compare a.bytes.toList b.bytes.toList

def text (id : ShortId) : String := Bytes.toHex id.bytes.toList

/-- Enough digits to tell peers apart. -/
def brief (id : ShortId) : String := s!"AdnlIdShort({Bytes.toHex (id.bytes.toList.take 8)})"

end ShortId

namespace PublicKey

def tag : UInt32 := 0x4813b4c6

/-- The name of the key's owner: the hash of the key as it is written. -/
def shortId (key : PublicKey) : ShortId :=
  ⟨sha256 (Bytes.ofNatLE 4 tag.toNat ++ key.bytes.toList)⟩

def text (key : PublicKey) : String := s!"PublicKey({Bytes.toHex key.bytes.toList})"

def ownerText (key : PublicKey) : String := s!"AdnlIdFull({key.shortId.brief})"

/-- The text of a private key, which shows the public half only. -/
def privateText (key : PublicKey) : String := "PrivateKey \x7b public_key: " ++ key.text ++ ", .. \x7d"

end PublicKey

end Adnl
