import Adnl.Channel.Basic
import Adnl.Config
import Adnl.History
import Adnl.Packet.Signing
import Adnl.Reassembly.Assembler
import Adnl.Supply

/-! The state of the conversation between one local and one remote identity. -/
namespace Adnl

/-- A local identity as its peers see it. -/
structure LocalIdentity where
  seed : Bytes32
  /-- When it started. -/
  reinitDate : Int32
  addresses : AddressList
deriving DecidableEq, Repr

def LocalIdentity.key (K : KeyScheme) (l : LocalIdentity) : PublicKey := K.publicKey l.seed

structure Pair where
  own : LocalIdentity
  remote : Descriptor
  /-- The remote's list came from the remote itself. -/
  listAdopted : Bool
  /-- The version of the own list that the peer says it has. -/
  peerKnownVersion : Option Int32
  /-- Where the last accepted packet came from. -/
  observed : Option Address
  /-- When the peer last started, zero until it has been heard from. -/
  peerReinitDate : Int32
  sent : History
  received : History
  channelSeed : Bytes32
  /-- When the own channel key was drawn. -/
  channelDate : Int32
  channel : Option Channel
  /-- The own channel key has been announced. -/
  createSent : Bool
  assembler : Assembler
  /-- How far ahead of the clock a peer's date may be, in seconds. -/
  maxSkew : Int32
  mtu : Nat
  supply : Supply

/-- How far the handshake has come, as seen from the local side. -/
inductive Handshake
  | noChannel
  /-- The own key was announced and there is no reply yet. -/
  | pending
  /-- Both keys are known but the peer has not used the channel. -/
  | confirmed
  | ready
deriving DecidableEq, Repr

def Handshake.text : Handshake → String
  | .noChannel => "NoChannel"
  | .pending => "ChannelPending"
  | .confirmed => "ChannelConfirmed"
  | .ready => "ChannelReady"

namespace Pair

/-- A pair that nothing has been sent to or heard from, with a new channel key. -/
def new (own : LocalIdentity) (remote : Descriptor) (config : Config) (now : Int32)
    (supply : Supply) : Pair :=
  let (channelSeed, supply) := supply.drawKey
  { own, remote
    listAdopted := false
    peerKnownVersion := none
    observed := none
    peerReinitDate := 0
    sent := .sender
    received := .receiver
    channelSeed
    channelDate := now
    channel := none
    createSent := false
    assembler := { maxBytes := config.assemblerMaxBytes, ttl := config.assemblerTtl }
    maxSkew := config.maxReinitSkewDate
    mtu := config.mtu
    supply }

def channelReady (p : Pair) : Bool := p.channel.any Channel.ready

def handshake (p : Pair) : Handshake :=
  match p.channel with
  | none => if p.createSent then .pending else .noChannel
  | some c => if c.ready then .ready else .confirmed

def channelKey (K : KeyScheme) (p : Pair) : Bytes32 := (K.publicKey p.channelSeed).bytes

def dropChannel (p : Pair) : Pair := { p with channel := none }

def markReady (p : Pair) : Pair :=
  { p with channel := p.channel.map fun c => { c with ready := true } }

/-- Takes over a newer list from another source than the peer. -/
def updateList (p : Pair) (l : AddressList) : Pair :=
  let (replaced, remote) := p.remote.update l
  if replaced then { p with remote, listAdopted := false } else p

end Pair

end Adnl
