import Adnl.Crypto.Envelope
import Adnl.Identity

/-! The two keys of an encrypted channel, one for each direction. -/
namespace Adnl

/-- One side's keys: what it sends under and what it receives under. -/
structure ChannelKeys where
  encrypt : Bytes32
  decrypt : Bytes32
deriving DecidableEq, Repr

namespace ChannelKeys

/-- The side with the greater id sends under the secret as it is and receives under its reversal,
the other side the other way round. -/
def derive (secret : Bytes32) (own remote : ShortId) : ChannelKeys :=
  match compare own remote with
  | .lt => ⟨secret.reverse, secret⟩
  | .gt => ⟨secret, secret.reverse⟩
  | .eq => ⟨secret, secret⟩

/-- The id in front of the datagrams that this side sends. -/
def outId (k : ChannelKeys) : ShortId := ⟨symmetricKeyId k.encrypt⟩

def inId (k : ChannelKeys) : ShortId := ⟨symmetricKeyId k.decrypt⟩

end ChannelKeys

end Adnl
