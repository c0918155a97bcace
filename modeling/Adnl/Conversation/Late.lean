import Adnl.Conversation.Run

/-!
What may still happen to a closed conversation. A task that waits for the closing and for something
else goes on with either one if both have come, and looks again afterwards.
-/
namespace Adnl.Turn

def receiveLate (K : KeyScheme) (now : Moment) (t : Turn) : Turn :=
  let c := t.conversation
  if c.isDeaf || c.outbox.receiverWaits then t
  else
    match c.work, c.input with
    | [], i :: rest =>
      ({ t with conversation := { c with input := rest } } : Turn).takePacket K now i
    | _, _ => t

/-- Opens the datagram that is next, if there is room for what is in it. -/
def unlockLate (t : Turn) : Turn :=
  let c := t.conversation
  match c.pair.channel, c.inbox.datagrams with
  | some channel, d :: rest =>
    if c.config.queueCapacity ≤ c.input.length then t
    else
      let t := { t with conversation := { c with inbox := { c.inbox with datagrams := rest } } }
      match t.unlockDatagram channel d with
      | (true, t) => t
      | (false, t) => t.closeInbox
  | _, _ => t

def lockLate (t : Turn) : Turn :=
  let c := t.conversation
  match c.pair.channel with
  | none => t
  | some channel =>
    { t with
      conversation := { c with sealing := [] }
      signals := t.signals ++ c.sealing.map (sealed channel) }

def sendLate (K : KeyScheme) (t : Turn) : Turn :=
  let c := t.conversation
  if c.isMute || c.departing.isSome then t
  else
    match c.outbox.first? with
    | none => t
    | some (first, o) => t.sendFrom K first o

/-- Ends a call with an answer, or because of the time. -/
def awaitLate (t : Turn) (now : Nat) (id : Bytes32) : Turn :=
  match t.conversation.queries.get? id with
  | none => t
  | some call =>
    match call.result, call.outcome? false now with
    | none, some result => t.endCall id result
    | _, _ => t

/-- One step of a task that overlooks the closing. -/
def late (K : KeyScheme) (now : Moment) (t : Turn) : Task → Turn
  | .receive => t.receiveLate K now
  | .send => t.sendLate K
  | .transmit => t.transmit
  | .unlock => t.unlockLate
  | .lock => t.lockLate
  | .pursue id => t.awaitLate now.elapsed id

/-- Nobody holds the conversation any more, and what is left of its channel goes with it. -/
def vanish (t : Turn) : Turn :=
  let c := t.conversation
  if c.isClosed && c.isDeaf then t.become c.pair.dropChannel t.routes else t

end Adnl.Turn
