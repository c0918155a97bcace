import Adnl.Host.Basic

/-! How nodes come and go, and how conversations end. -/
namespace Adnl.Host

/-- The list of a node that is given none: where the host is bound, if that says something. -/
def defaultAddresses (h : Host) (version reinitDate : Int32) : AddressList :=
  { addresses := if h.address.ip.isUnspecified then [] else [h.address], version, reinitDate }

structure NodeOptions where
  seed : Bytes32
  /-- The present if not given. -/
  reinitDate : Option Int32 := none
  addresses : Option AddressList := none
  messageHandlers : Nat := 0
  queryHandlers : List (Bytes → Reply) := []

/-- Registers a node. Its id has to be free. -/
def addNode (K : KeyScheme) (h : Host) (o : NodeOptions) (date : Int32) : Except Error (Nat × Host) :=
  let reinitDate := o.reinitDate.getD date
  let own : LocalIdentity :=
    ⟨o.seed, reinitDate, o.addresses.getD (h.defaultAddresses date reinitDate)⟩
  let id := (own.key K).shortId
  match h.routes.register id .localNode with
  | .error e => .error e
  | .ok (ticket, routes) =>
    let node : Node := {
      own, id, ticket
      messageHandlers := o.messageHandlers
      queryHandlers := o.queryHandlers
      inbox := { capacity := h.config.queueCapacity }
      announced := .ofCapacity h.config.announcementCapacity
      isClosed := h.isClosed }
    let n := h.nodes.length
    .ok (n, { h with routes, nodes := h.nodes ++ [node] }.wake (.serve n))

def queriesOf (h : Host) (i : Nat) : List Nat :=
  (List.range h.queries.length).filter fun k =>
    h.queries[k]?.map InboundQuery.conversation = some i

def close (h : Host) (i : Nat) : Host :=
  (h.queriesOf i).foldl (fun h k => h.wake (.answer k)) (h.turn i Turn.close)

def conversationsOf (h : Host) (n : Nat) : List Nat :=
  (List.range h.conversations.length).filter fun i =>
    h.conversations[i]?.map Conversation.node = some n

/-- Closes a node and its conversations. The id stays taken. -/
def closeNode (h : Host) (n : Nat) : Host :=
  let h := (h.modifyNode n fun n => { n with isClosed := true }).wake (.serve n)
  (h.conversationsOf n).foldl close h

/-- Closes a node and gives its id free. -/
def dropNode (h : Host) (n : Nat) : Host :=
  let h := h.closeNode n
  match h.nodes[n]? with
  | none => h
  | some node =>
    { h with routes := h.routes.release node.id node.ticket }.modifyNode n fun n =>
      { n with isDropped := true }

/-- Stops everything on the host. It stays bound to its address. -/
def shutDown (h : Host) : Host :=
  (List.range h.nodes.length).foldl closeNode ({ h with isClosed := true }.wake .route)

end Adnl.Host
