import Adnl.Conversation.Basic

/-!
The sending side of a conversation. Packets for the channel are handed over at once; with a packet
outside the channel it waits until the datagrams are on their way.
-/
namespace Adnl.Turn

/-- Hands over a packet that has been made. A packet that has nowhere to go is lost. -/
def depart (t : Turn) : Except Error Outgoing → Turn
  | .error _ => t
  | .ok (.plain destination addresses data) =>
    { t with conversation := { t.conversation with
      departing := some (addresses.map fun a => (a, destination.bytes.toList ++ data)) } }.signal
      (.wake .transmit)
  | .ok (.channel _ address data) =>
    { t with conversation := { t.conversation with
      sealing := t.conversation.sealing ++ [(address, data)] } }.signal (.wake .lock)

/-- Makes and hands over the packet that a message opens; `o` is the outbox without it. -/
def sendFrom (K : KeyScheme) (t : Turn) (first : Message) (o : Outbox) : Turn :=
  match o.pack K t.conversation.pair first with
  | (none, pair, outbox) => { t with conversation := { t.conversation with pair, outbox } }
  | (some packet, pair, outbox) =>
    let (outgoing, pair) := pair.route K packet
    { t with conversation := { t.conversation with pair, outbox } }.depart outgoing

/-- The sending side ends; nobody waits for room any more. -/
def finishSending (t : Turn) : Turn :=
  let c := t.conversation
  let t := { t with conversation := { c with
    isMute := true, outbox := { c.outbox with queue := [], parked := [] } } }
  if c.outbox.receiverWaits then t.signal (.wake .receive) else t

theorem outbox_depart (t : Turn) (outgoing : Except Error Outgoing) :
    (t.depart outgoing).conversation.outbox = t.conversation.outbox := by
  unfold depart
  split <;> rfl

theorem size_sendFrom (K : KeyScheme) (t : Turn) (first : Message) (o : Outbox) :
    (t.sendFrom K first o).conversation.outbox.size ≤ o.size := by
  have h := o.size_pack K t.conversation.pair first
  unfold sendFrom
  split <;> next heq => simpa [heq, outbox_depart] using h

/-- Sends what the outbox holds. A message left over goes out even after closing. One in the queue
races with the closing, which is taken first here; `sendLate` takes the message. -/
def sendAll (K : KeyScheme) (t : Turn) : Turn :=
  let c := t.conversation
  if c.isMute || c.departing.isSome then t
  else if c.isClosed && c.outbox.pending.isNone then t.finishSending
  else
    match _h : c.outbox.first? with
    | none => t
    | some (first, o) => sendAll K (t.sendFrom K first o)
termination_by t.conversation.outbox.size
decreasing_by
  have := size_sendFrom K t first o
  have : o.size + 1 = t.conversation.outbox.size := Outbox.size_of_first? _h
  omega

/-- Lets in the messages that wait for room, and those who wait with them go on. -/
def refill (t : Turn) : Turn :=
  let c := t.conversation
  let entering := c.outbox.parked.take c.outbox.room
  let t := { t with conversation := { c with outbox := c.outbox.refill } }
  let t := if entering.any Pair.isConfirmation then t.signal (.wake .receive) else t
  if !entering.isEmpty && c.departing.isNone then t.signal (.wake .send) else t

def send (K : KeyScheme) (t : Turn) : Turn := (t.sendAll K).refill

/-- Sends a packet to all addresses. The sending side goes on as soon as the first datagram has
left. -/
def transmit (t : Turn) : Turn :=
  let c := t.conversation
  let datagrams := (c.departing.getD []).map fun (address, data) => Signal.datagram address data
  { t with
    conversation := { c with departing := none }
    signals := t.signals ++ datagrams.take 1 ++ [.wake .send] ++ datagrams.drop 1 }

end Adnl.Turn
