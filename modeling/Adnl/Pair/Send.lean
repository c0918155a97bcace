import Adnl.Crypto.Envelope
import Adnl.Pair.Basic

/-! How messages are put into packets, and which way packets leave. -/
namespace Adnl

/-- The messages of the next packet and what is left of the queue. -/
structure Collected where
  messages : List Message
  /-- The message that was taken from the queue and did not fit. -/
  overflow : Option Message
  queue : List Message
deriving DecidableEq, Repr

inductive Outgoing
  /-- Encrypted to the peer's identity, to every address known. -/
  | plain (destination : ShortId) (addresses : List Address) (data : Bytes)
  /-- A packet still to be sealed by the channel. -/
  | channel (channel : Channel) (address : Address) (data : Bytes)
deriving DecidableEq, Repr

namespace Pair

/-- Takes messages as long as they fit beside `size` bytes. -/
def takeFitting (mtu : Nat) : Nat → List Message → Collected
  | _, [] => ⟨[], none, []⟩
  | size, m :: queue =>
    if mtu < size + m.encodedLength then ⟨[], some m, queue⟩
    else
      let c := takeFitting mtu (size + m.encodedLength) queue
      { c with messages := m :: c.messages }

/-- What the header of the next packet may take. -/
def headerSize (p : Pair) : Nat :=
  if p.channelReady then channelHeaderSize else plainHeaderSize p.own.addresses

def isConfirmation : Message → Bool
  | .confirmChannel .. => true
  | _ => false

/-- The handshake message that the next packet has to carry beside `first`. -/
def handshakeMessage (K : KeyScheme) (p : Pair) (first : Message) : List Message :=
  match p.channel with
  | none => [.createChannel (p.channelKey K) p.channelDate]
  | some c =>
    if c.ready || isConfirmation first then []
    else [.confirmChannel (p.channelKey K) c.remoteKey p.channelDate]

/-- Picks the messages of the next packet: the handshake message, `first` if it fits, and what fits
of the queue. -/
def collect (K : KeyScheme) (p : Pair) (first : Message) (queue : List Message) :
    Collected × Pair :=
  let head := p.handshakeMessage K first
  let size := p.headerSize + Bytes.total (head.map Message.encodedLength)
  let fits := size + first.encodedLength ≤ p.mtu
  let c := takeFitting p.mtu (if fits then size + first.encodedLength else size) queue
  ({ c with messages := head ++ (if fits then [first] else []) ++ c.messages },
    if p.channel.isNone then { p with createSent := true } else p)

/-- Makes the packet that carries the messages. Outside the channel it names and signs its sender. -/
def build (K : KeyScheme) (p : Pair) (messages : List Message) : Packet × Pair :=
  let (rand1, supply) := p.supply.drawPadding
  let (rand2, supply) := supply.drawPadding
  let (seqno, sent) := p.sent.next
  let packet : Packet :=
    { rand1, rand2
      seqno := some seqno
      confirmSeqno := some p.received.last
      reinitDates := some ⟨p.own.reinitDate, p.peerReinitDate⟩
      knownVersion := if p.listAdopted then some p.remote.addresses.version else none }
  let packet := packet.setMessages messages
  let packet :=
    if p.channelReady then packet
    else
      { packet with
        sender := some (p.own.key K)
        address := if p.peerKnownVersion = some p.own.addresses.version then none
          else some p.own.addresses }
      |>.sign K p.own.seed
  (packet, { p with supply, sent })

/-- Every address at which the peer may be: its list, then where it was last seen. -/
def addresses (p : Pair) : List Address :=
  match p.observed with
  | some a =>
    if a ∈ p.remote.addresses.addresses then p.remote.addresses.addresses
    else p.remote.addresses.addresses ++ [a]
  | none => p.remote.addresses.addresses

/-- Sends a packet through the channel once that is ready, else encrypted to the peer's identity. -/
def route (K : KeyScheme) (p : Pair) (packet : Packet) : Except Error Outgoing × Pair :=
  match p.channel.filter Channel.ready with
  | some c =>
    match p.observed.or p.remote.addresses.addresses.head? with
    | some a => (.ok (.channel c a packet.encode), p)
    | none => (.error (.address .none), p)
  | none =>
    if p.addresses = [] then (.error (.address .none), p)
    else
      let (oneTime, supply) := p.supply.drawKey
      let p := { p with supply }
      match Envelope.lockFor K oneTime p.remote.key packet.encode with
      | .ok data => (.ok (.plain p.remote.key.shortId p.addresses data), p)
      | .error e => (.error (.crypto e), p)

end Pair

end Adnl
