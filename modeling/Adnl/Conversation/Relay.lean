import Adnl.Conversation.Basic
import Adnl.Pair.Receive

/-! The two ends of a channel: what comes in is opened, what leaves is sealed. -/
namespace Adnl.Turn

def closeInbox (t : Turn) : Turn :=
  { t with conversation := { t.conversation with inbox := t.conversation.inbox.close } }

def pass (t : Turn) (i : Incoming) : Turn :=
  let c := t.conversation
  let t := { t with conversation := { c with input := c.input ++ [i] } }
  if c.outbox.receiverWaits then t else t.signal (.wake .receive)

/--
Opens one datagram of the channel. One that opens proves that the peer holds the keys, whatever is
in it. Whether the channel can go on.
-/
def unlockDatagram (t : Turn) (channel : Channel) (d : Datagram) : Bool × Turn :=
  match Envelope.unlock channel.keys.decrypt d.payload with
  | .error _ => (true, t)
  | .ok data =>
    let t := t.become t.conversation.pair.markReady t.routes
    match Packet.decode data with
    | .error (.refused _) => (true, t)
    | .error .outOfRange => (false, t)
    | .ok packet =>
      if t.conversation.isDeaf then (false, t) else (true, t.pass ⟨packet, d.source, true⟩)

/-- Opens datagrams as long as the input has room. -/
def unlockAll (channel : Channel) (t : Turn) : List Datagram → Turn
  | [] => t
  | d :: rest =>
    let c := t.conversation
    if c.config.queueCapacity ≤ c.input.length then
      { t with conversation := { c with inbox := { c.inbox with datagrams := d :: rest } } }
    else
      match t.unlockDatagram channel d with
      | (true, t) => unlockAll channel t rest
      | (false, t) => t.closeInbox

/-- A turn of the channel's inward side. When the conversation has been closed while datagrams wait,
either may come first: here it is the closing, in `unlockLate` the datagram. -/
def unlock (t : Turn) : Turn :=
  let c := t.conversation
  if c.isClosed then t.closeInbox
  else
    match c.pair.channel with
    | none => t
    | some channel =>
      let t := { t with conversation := { c with inbox := { c.inbox with datagrams := [] } } }
      unlockAll channel t c.inbox.datagrams

/-- A packet as it leaves through the channel: the outbound id, then the sealed data. -/
def sealed (channel : Channel) (packet : Address × Bytes) : Signal :=
  .datagram packet.1 (channel.keys.outId.bytes.toList ++
    Envelope.lock channel.keys.encrypt packet.2)

/-- A turn of the channel's outward side. When the conversation has been closed while packets wait,
either may come first: here it is the closing, in `lockLate` the packets. -/
def lock (t : Turn) : Turn :=
  let c := t.conversation
  let t := { t with conversation := { c with sealing := [] } }
  match c.isClosed, c.pair.channel with
  | false, some channel => { t with signals := t.signals ++ c.sealing.map (sealed channel) }
  | _, _ => t

end Adnl.Turn
