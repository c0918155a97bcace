import Adnl.Pair.Basic
import Adnl.Crypto.Envelope
import Adnl.Packet.Signing

/-! Remote peers without a host. What they send is made up, what they are sent is read. -/
namespace Adnl

structure Puppet where
  name : String
  seed : Bytes32
  channelSeed : Bytes32
  address : Address
deriving DecidableEq, Repr

namespace Puppet

def key (K : KeyScheme) (p : Puppet) : PublicKey := K.publicKey p.seed

def id (K : KeyScheme) (p : Puppet) : ShortId := (p.key K).shortId

def channelKey (K : KeyScheme) (p : Puppet) : Bytes32 := (K.publicKey p.channelSeed).bytes

/-- The keys of the channel between the two channel keys as they are now. -/
def channelKeys? (K : KeyScheme) (p : Puppet) (pair : Pair) : Option ChannelKeys :=
  (K.agree p.channelSeed ⟨pair.channelKey K⟩).toOption.map fun secret =>
    .derive secret (p.id K) (pair.own.key K).shortId

def sign (K : KeyScheme) (p : Puppet) (packet : Packet) : Packet :=
  Packet.sign K p.seed { packet with sender := some (p.key K) }

/-- Seals what is addressed to an identity. The one-time key need not be fresh here. -/
def lockFor (K : KeyScheme) (p : Puppet) (recipient : PublicKey) (data : Bytes) : Option Bytes :=
  (Envelope.lockFor K p.channelSeed recipient data).toOption

def readPlain? (K : KeyScheme) (p : Puppet) (payload : Bytes) : Option Packet := do
  (Packet.decode (← (Envelope.unlockWith K p.seed payload).toOption)).toOption

end Puppet

def ChannelKeys.read? (k : ChannelKeys) (payload : Bytes) : Option Packet := do
  (Packet.decode (← (Envelope.unlock k.decrypt payload).toOption)).toOption

end Adnl
