import Adnl.Host.Basic

/-! How conversations begin: by a packet from an unknown identity, or by the application. -/
namespace Adnl.Host

/-- The conversation with a remote identity that is not closed. -/
def live? (h : Host) (n : Nat) (remote : ShortId) : Option Nat := do
  let node ← h.nodes[n]?
  let i ← node.peers.lookup remote
  let c ← h.conversations[i]?
  if c.isClosed then none else some i

/-- Starts a conversation, in the place of a closed one if there is one. -/
def start (h : Host) (n : Nat) (node : Node) (remote : Descriptor) (date : Int32) : Nat × Host :=
  let i := h.conversations.length
  let c := Conversation.new n h.config (.new node.own remote h.config date (h.supplies i))
  let id := remote.key.shortId
  let h := { h with conversations := h.conversations ++ [c] }.modifyNode n fun n =>
    { n with peers := (id, i) :: n.peers.filter (·.1 ≠ id) }
  (i, (h.wake (.converse i .receive)).wake (.converse i .send))

/-- A packet has begun a conversation. -/
def announce (h : Host) (n i : Nat) : Host :=
  h.modifyNode n fun n => { n with announced := n.announced.push i }

/-- The application takes notice of who has made contact. -/
def look (h : Host) (n : Nat) : Host :=
  h.modifyNode n fun n => { n with announced := n.announced.clear }

def deliver (h : Host) (i : Nat) (p : Incoming) : Host :=
  match h.conversations[i]? with
  | none => h
  | some c =>
    let h := { h with conversations := h.conversations.set i (c.deliver p) }
    if c.outbox.receiverWaits then h else h.wake (.converse i .receive)

/-- The conversation for a packet's sender. A first packet has to carry the sender's key. -/
def admitPacket (h : Host) (n : Nat) (node : Node) (date : Int32) (p : Incoming) : Host :=
  match p.packet.senderName with
  | none => h
  | some remote =>
    match h.live? n remote with
    | some i => h.deliver i p
    | none =>
      match p.packet.sender with
      | none => h
      | some key =>
        let (i, h) := h.start n node ⟨key, {}⟩ date
        (h.announce n i).deliver i p

/-- Opens one datagram for a node; whether the node can go on. -/
def serveDatagram (K : KeyScheme) (h : Host) (n : Nat) (date : Int32) (d : Datagram) :
    Bool × Host :=
  match h.nodes[n]? with
  | none => (true, h)
  | some node =>
    match Envelope.unlockWith K node.own.seed d.payload with
    | .error _ => (true, h)
    | .ok data =>
      match Packet.decode data with
      | .error (.refused _) => (true, h)
      | .error .outOfRange => (false, h)
      | .ok packet => (true, h.admitPacket n node date ⟨packet, d.source, false⟩)

def closeInbox (h : Host) (n : Nat) : Host :=
  h.modifyNode n fun n => { n with inbox := n.inbox.close }

def serveAll (K : KeyScheme) (n : Nat) (date : Int32) (h : Host) : List Datagram → Host
  | [] => h
  | d :: rest =>
    match h.serveDatagram K n date d with
    | (true, h) => serveAll K n date h rest
    | (false, h) => h.closeInbox n

/-- Handles everything that has been routed to a node. -/
def serve (K : KeyScheme) (h : Host) (n : Nat) (date : Int32) : Host :=
  match h.nodes[n]? with
  | none => h
  | some node =>
    if node.isClosed then h.closeInbox n
    else
      serveAll K n date
        (h.modifyNode n fun n => { n with inbox := { n.inbox with datagrams := [] } })
        node.inbox.datagrams

/--
The conversation with a remote identity, started if there is none. A new one makes contact at once;
for one that is there a newer address list is taken over.
-/
def connect (h : Host) (n : Nat) (remote : Descriptor) (date : Int32) : Except Error Nat × Host :=
  match h.nodes[n]? with
  | none => (.error .channelClosed, h)
  | some node =>
    if node.isClosed then (.error .channelClosed, h)
    else
      match h.live? n remote.key.shortId with
      | some i =>
        (.ok i, h.turn i fun t =>
          t.become (t.conversation.pair.updateList remote.addresses) t.routes)
      | none =>
        let (i, h) := h.start n node remote date
        (.ok i, h.turn i fun t => t.offer .nop)

end Adnl.Host
