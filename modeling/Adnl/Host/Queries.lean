import Adnl.Host.Basic

/-! Messages and queries between the application and its conversations. -/
namespace Adnl.Host

def sendMessage (h : Host) (i : Nat) (data : Bytes) : Except Error Unit × Host :=
  match h.conversations[i]? with
  | none => (.error .channelClosed, h)
  | some c =>
    match c.checkSize (.custom data) with
    | .error e => (.error e, h)
    | .ok () =>
      if c.isClosed then (.error .channelClosed, h)
      else (.ok (), h.turn i fun t => t.offer (.custom data))

/-- Prepares a query; gives its id. -/
def prepareQuery (h : Host) (i : Nat) (query : Bytes) (timeout : Nat) : Bytes32 × Host :=
  match h.conversations[i]? with
  | none => (Vector.replicate 32 0, h)
  | some c =>
    let (id, supply) := c.pair.supply.drawFill
    let c := { c with
      pair := { c.pair with supply }
      queries := c.queries.add { id, query, timeout } }
    (id, { h with conversations := h.conversations.set i c })

/-- Asks a query and goes on without waiting. -/
def startQuery (h : Host) (i : Nat) (query : Bytes) (timeout : Nat) : Bytes32 × Host :=
  let (id, h) := h.prepareQuery i query timeout
  (id, h.wake (.converse i (.pursue id)))

def askQuery (h : Host) (now : Nat) (i : Nat) (query : Bytes) (timeout : Nat) : Bytes32 × Host :=
  let (id, h) := h.prepareQuery i query timeout
  (id, h.turn i fun t => t.pursue now id)

/-- How a query has ended, if it has. -/
def queryResult? (h : Host) (i : Nat) (id : Bytes32) : Option (Except Error Bytes) := do
  let c ← h.conversations[i]?
  (← c.queries.get? id).result

/-- Puts a query before the handlers of its node. A handler that keeps it is remembered. -/
def presentQuery (h : Host) (now : Nat) (k : Nat) (q : InboundQuery) : Host :=
  match h.owner? q.conversation with
  | none => h
  | some (c, n) =>
    let presented := q.presentAll n.queryHandlers (now + h.config.handlerTimeout)
    let h := { h with
      queries := h.queries.set k presented
      events := h.events ++ (List.range n.queryHandlers.length).map (event c .query q.data) }
    h.modifyNode c.node fun n => { n with held := n.held ++ List.replicate presented.holders k }

/-- Looks whether an inbound query is to be answered or given up. -/
def concludeQuery (h : Host) (now : Nat) (k : Nat) (q : InboundQuery) : Host :=
  match h.conversations[q.conversation]? with
  | none => h
  | some c =>
    let (m, q) := q.conclude c.isClosed now c.maxMessageSize
    let h := { h with queries := h.queries.set k q }
    match m with
    | none => h
    | some m => h.turn q.conversation fun t => (t.enqueue m).2

def answerQuery (h : Host) (now : Nat) (k : Nat) : Host :=
  let h := match h.queries[k]? with
    | some q => if q.stage = .fresh then h.presentQuery now k q else h
    | none => h
  match h.queries[k]? with
  | some q => h.concludeQuery now k q
  | none => h

/-- The query that a node has kept in the given place. -/
def held? (h : Host) (n place : Nat) : Option (Nat × InboundQuery) := do
  let node ← h.nodes[n]?
  let k ← node.held[place]?
  return (k, ← h.queries[k]?)

/-- Answers a kept query; whether the answer counts. -/
def respond (h : Host) (n place : Nat) (data : Bytes) : Bool × Host :=
  match h.held? n place with
  | none => (false, h)
  | some (k, q) =>
    let (counts, slot) := q.slot.respond data
    (counts, { h with queries := h.queries.set k { q with slot } }.wake (.answer k))

/-- Makes another copy of a kept query. All copies share one reply. -/
def copyHeld (h : Host) (n place : Nat) : Host :=
  match h.held? n place with
  | none => h
  | some (k, q) =>
    { h with queries := h.queries.set k q.copy }.modifyNode n fun node =>
      { node with held := node.held ++ [k] }

def dropHeld (h : Host) (n place : Nat) : Host :=
  match h.held? n place with
  | none => h
  | some (k, q) =>
    ({ h with queries := h.queries.set k q.letGo }.modifyNode n fun node =>
      { node with held := node.held.eraseIdx place }).wake (.answer k)

def releaseHeld (h : Host) (n : Nat) : Nat × Host :=
  match h.nodes[n]? with
  | none => (0, h)
  | some node =>
    let h := h.modifyNode n fun n => { n with held := [] }
    (node.held.length, node.held.foldl (fun h k =>
      { h with queries := h.queries.modify k InboundQuery.letGo }.wake (.answer k)) h)

def expiredCalls (now : Nat) (c : Conversation) : List Bytes32 :=
  (c.queries.calls.filter fun q => q.result.isNone && q.deadline.any (· ≤ now)).map Call.id

def expiredQueries (h : Host) (now : Nat) : List Nat :=
  (List.range h.queries.length).filter fun k =>
    match h.queries[k]?.map InboundQuery.stage with
    | some (.waiting deadline) => deadline ≤ now
    | _ => false

/-- Whoever has waited too long takes notice. -/
def expire (h : Host) (now : Nat) : Host :=
  let calls := h.conversations.zipIdx.flatMap fun (c, i) =>
    (expiredCalls now c).map fun id => Activity.converse i (.pursue id)
  (calls ++ (h.expiredQueries now).map Activity.answer).foldl wake h

end Adnl.Host
