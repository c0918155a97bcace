import Adnl.Conversation.Run
import Adnl.Host.Backlog
import Adnl.Host.Limiter
import Adnl.Query.Inbound

/-!
One transport address with the local nodes bound to it and all their conversations. Nodes,
conversations and inbound queries are named by their position and never taken out.
-/
namespace Adnl

structure Node where
  own : LocalIdentity
  id : ShortId
  /-- Owns the routing entry of the id. -/
  ticket : Nat
  messageHandlers : Nat
  queryHandlers : List (Bytes → Reply)
  inbox : Inbox
  /-- The conversation with each remote identity. -/
  peers : List (ShortId × Nat) := []
  /-- The conversations that packets have begun. -/
  announced : Backlog Nat
  /-- The inbound queries that handlers have kept. -/
  held : List Nat := []
  isClosed : Bool := false
  /-- It has been closed for good and its id is free. -/
  isDropped : Bool := false

def Node.text (n : Node) : String :=
  "AdnlLocalNode \x7b id: " ++ n.id.brief ++
    s!", reinit_date: {n.own.reinitDate.toInt}, peers: {n.peers.length} \x7d"

/-- A queue registered for an id without a node or a channel behind it. -/
structure Listener where
  id : ShortId
  ticket : Nat
  inbox : Inbox
deriving DecidableEq, Repr

inductive Occasion
  | message
  | query
deriving DecidableEq, Repr

structure Event where
  node : Nat
  occasion : Occasion
  handler : Nat
  sender : ShortId
  data : Bytes
deriving DecidableEq, Repr

/-- What runs on a host, each on its own. -/
inductive Activity
  | route
  | serve (node : Nat)
  | converse (conversation : Nat) (task : Task)
  | answer (query : Nat)
deriving DecidableEq, Repr

/-- What a host causes outside itself. -/
inductive Effect
  | wake (activity : Activity)
  | send (target : Address) (data : Bytes)
deriving DecidableEq, Repr

structure Host where
  address : Address
  config : Config
  /-- When it was bound, in milliseconds. -/
  since : Nat
  limiter : Limiter
  /-- Random values for each conversation. -/
  supplies : Nat → Supply
  isClosed : Bool := false
  /-- What has arrived and has not been sorted. -/
  arrived : List Datagram := []
  routes : RouteTable := {}
  listeners : List Listener := []
  nodes : List Node := []
  conversations : List Conversation := []
  queries : List InboundQuery := []
  events : List Event := []
  /-- What has been caused so far, in order. -/
  effects : List Effect := []

namespace Host

def bind (address : Address) (config : Config) (supplies : Nat → Supply) (now : Nat) : Host where
  address := address
  config := config
  since := now
  limiter := .ofRate config.rateLimit
  supplies := supplies
  effects := [.wake .route]

def emit (h : Host) (e : Effect) : Host := { h with effects := h.effects ++ [e] }

def wake (h : Host) (a : Activity) : Host := h.emit (.wake a)

def modifyNode (h : Host) (n : Nat) (f : Node → Node) : Host :=
  { h with nodes := h.nodes.modify n f }

/-- The node that a conversation belongs to, and the remote identity. -/
def owner? (h : Host) (i : Nat) : Option (Conversation × Node) := do
  let c ← h.conversations[i]?
  let n ← h.nodes[c.node]?
  return (c, n)

def event (c : Conversation) (occasion : Occasion) (data : Bytes) (handler : Nat) : Event :=
  ⟨c.node, occasion, handler, c.pair.remote.key.shortId, data⟩

def hear (h : Host) (i : Nat) (data : Bytes) : Host :=
  match h.owner? i with
  | none => h
  | some (c, n) =>
    { h with events := h.events ++ (List.range n.messageHandlers).map (event c .message data) }

/-- A query is put before the handlers, if there are any. -/
def inquire (h : Host) (i : Nat) (id : Bytes32) (data : Bytes) : Host :=
  match h.owner? i with
  | none => h
  | some (_, n) =>
    if n.queryHandlers.isEmpty then h
    else
      let q : InboundQuery := { conversation := i, id, data }
      { h with queries := h.queries ++ [q] }.wake (.answer h.queries.length)

/-- A conversation that has ended is forgotten, unless another one has taken its place. -/
def forget (h : Host) (i : Nat) : Host :=
  match h.owner? i with
  | none => h
  | some (c, _) =>
    h.modifyNode c.node fun n =>
      { n with peers := n.peers.filter fun e => !(e.1 = c.pair.remote.key.shortId && e.2 = i) }

/-- Carries out what a turn of a conversation has caused. -/
def absorb (i : Nat) (h : Host) : Signal → Host
  | .wake task => h.wake (.converse i task)
  | .datagram target data => h.emit (.send target data)
  | .heard data => h.hear i data
  | .asked id data => h.inquire i id data
  | .stopped => h.forget i

def turn (h : Host) (i : Nat) (f : Turn → Turn) : Host :=
  match h.conversations[i]? with
  | none => h
  | some c =>
    let t := f { conversation := c, routes := h.routes }
    t.signals.foldl (absorb i)
      { h with conversations := h.conversations.set i t.conversation, routes := t.routes }

end Host

end Adnl
