import Adnl.Conversation.Outbox
import Adnl.Query.Call

/-!
A running pair: its state together with everything that waits to be received or sent. Its tasks
take turns; a turn changes the conversation and the routing table it shares, and says in order what
else it causes.
-/
namespace Adnl

structure Moment where
  /-- Milliseconds of a clock that only goes forward. -/
  elapsed : Nat
  /-- Seconds since 1970. -/
  date : Int32
deriving DecidableEq, Repr

/-- What a host receives; the id of the receiver has been taken off once it is routed. -/
structure Datagram where
  source : Address
  payload : Bytes
deriving DecidableEq, Repr

structure Inbox where
  capacity : Nat
  datagrams : List Datagram := []
  isOpen : Bool := true
deriving DecidableEq, Repr

/-- Adds a datagram. It is lost when the queue is full or its reader has stopped. -/
def Inbox.push (i : Inbox) (d : Datagram) : Inbox :=
  if i.isOpen && i.datagrams.length < i.capacity then { i with datagrams := i.datagrams ++ [d] }
  else i

def Inbox.close (i : Inbox) : Inbox := { i with datagrams := [], isOpen := false }

structure Incoming where
  packet : Packet
  source : Address
  viaChannel : Bool
deriving DecidableEq, Repr

/-- What runs for a conversation, each on its own. -/
inductive Task
  | receive
  | send
  /-- Sends a packet to every address of the peer. -/
  | transmit
  /-- Opens what comes in through the channel. -/
  | unlock
  /-- Seals what leaves through the channel. -/
  | lock
  /-- Waits for the answer to a query. -/
  | pursue (id : Bytes32)
deriving DecidableEq, Repr

/-- What a turn causes outside the conversation. -/
inductive Signal
  | wake (task : Task)
  | datagram (target : Address) (data : Bytes)
  | heard (data : Bytes)
  | asked (id : Bytes32) (data : Bytes)
  /-- The receiving side has ended in order. -/
  | stopped
deriving DecidableEq, Repr

structure Conversation where
  node : Nat
  config : Config
  pair : Pair
  input : List Incoming := []
  /-- Messages of the packet being handled. -/
  work : List Message := []
  outbox : Outbox
  /-- The datagrams of a packet that is being sent outside the channel. -/
  departing : Option (List (Address × Bytes)) := none
  /-- What has come in for the channel. -/
  inbox : Inbox
  /-- Packets that are to leave through the channel. -/
  sealing : List (Address × Bytes) := []
  queries : QueryTable := {}
  isClosed : Bool := false
  /-- The receiving side has ended. -/
  isDeaf : Bool := false
  /-- The sending side has ended. -/
  isMute : Bool := false

namespace Conversation

def new (node : Nat) (config : Config) (pair : Pair) : Conversation where
  node := node
  config := config
  pair := pair
  outbox := { capacity := config.queueCapacity }
  inbox := { capacity := config.queueCapacity }

def text (K : KeyScheme) (c : Conversation) : String :=
  "AdnlChannel \x7b local: " ++ (c.pair.own.key K).shortId.brief ++ ", remote: " ++
    c.pair.remote.key.shortId.brief ++ s!", closed: {c.isClosed} \x7d"

/-- The ticket of the channel's routing entry. -/
def ticket? (c : Conversation) : Option Nat := c.pair.channel.map Channel.ticket

def maxMessageSize (c : Conversation) : Nat :=
  c.config.maxMessageSize (plainHeaderSize c.pair.own.addresses)

def checkSize (c : Conversation) (m : Message) : Except Error Unit :=
  if c.maxMessageSize < m.encodedLength then
    .error (.messageTooLarge m.encodedLength c.maxMessageSize)
  else .ok ()

/-- A packet from the node. It is lost when the queue is full or nobody takes packets any more. -/
def deliver (c : Conversation) (i : Incoming) : Conversation :=
  if !c.isDeaf && c.input.length < c.config.queueCapacity then { c with input := c.input ++ [i] }
  else c

end Conversation

structure Turn where
  conversation : Conversation
  routes : RouteTable
  signals : List Signal := []

namespace Turn

def signal (t : Turn) (s : Signal) : Turn := { t with signals := t.signals ++ [s] }

/--
The pair has changed. The routing entry of a channel given up is freed, and what waited for that
channel is lost; a new channel starts with empty queues.
-/
def become (t : Turn) (pair : Pair) (routes : RouteTable) : Turn :=
  let c := t.conversation
  let t := { t with
    conversation := { c with pair }
    routes := Channel.closeReplaced c.pair.channel pair.channel routes }
  if t.conversation.ticket? = c.ticket? then t
  else
    let t := { t with conversation := { t.conversation with
      inbox := { capacity := c.config.queueCapacity }, sealing := [] } }
    if pair.channel.isSome then (t.signal (.wake .unlock)).signal (.wake .lock) else t

/-- Puts a message into the outbox; the sending side takes notice when it has nothing to do. -/
def offer (t : Turn) (m : Message) : Turn :=
  let c := t.conversation
  let queued := c.outbox.hasRoom
  let t := { t with conversation := { c with outbox := c.outbox.offer m } }
  if queued && c.departing.isNone then t.signal (.wake .send) else t

/-- Puts a message into the outbox unless the conversation is closed. -/
def enqueue (t : Turn) (m : Message) : Except Error Unit × Turn :=
  if t.conversation.isClosed then (.error .channelClosed, t) else (.ok (), t.offer m)

/-- Closes the conversation. Everything that runs for it takes notice. -/
def close (t : Turn) : Turn :=
  let c := t.conversation
  if c.isClosed then t
  else
    { t with
      conversation := { c with isClosed := true }
      signals := t.signals ++ ([.wake .receive, .wake .send] ++
        c.queries.calls.map fun q => .wake (.pursue q.id)) }

end Turn

end Adnl
