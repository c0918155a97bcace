import Adnl.Scenario.Sighting

/-! The steps of a scenario and what each of them shows. -/
namespace Adnl

structure Performance where
  node : String
  puppet : String
  viaChannel : Bool
  content : Packet ⊕ Bytes
  /-- Outside the channel the packet is made and signed in the puppet's name. -/
  isSigned : Bool := true
  /-- The place of a byte of the sealed payload that arrives changed. -/
  tamper : Option Nat := none
  /-- How much of the sealed payload arrives. -/
  truncate : Option Nat := none
  /-- Another address for it to come from. -/
  source : Option Address := none
  copies : Nat := 1

def Performance.damage (p : Performance) (payload : Bytes) : Bytes :=
  let payload := match p.tamper with
    | some place => payload.modify (place % payload.length) (· ^^^ 1)
    | none => payload
  match p.truncate with
  | some length => payload.take length
  | none => payload

inductive Step
  | bind (name : String) (address : Address) (config : Config)
  | shutDown (host : String)
  | rate (host : String) (ip : Ip) (count : Nat)
  | routes (host : String)
  | listen (host name : String) (id : ShortId) (kind : RouteKind) (capacity : Nat)
  | unlisten (listener : String)
  | closeListener (listener : String)
  | drain (listener : String)
  | sendTo (host : String) (id : ShortId) (target : Address) (data : Bytes)
  | inject (source target : Address) (data : Bytes)
  /-- A host fails to receive once. -/
  | disturb (target : Address)
  | link (mode : Link)
  | pause
  | advance (ms : Nat)
  | setDate (seconds : Int)
  | node (name host : String) (options : Host.NodeOptions)
  | puppet (p : Puppet)
  | connect (node remote : String) (addresses : Option AddressList)
  | send (node remote : String) (data : List Bytes)
  | query (node remote : String) (data : Bytes) (timeout : Nat)
  | startQuery (node remote : String) (data : Bytes) (timeout : Nat) (tag : String)
  | finishQuery (tag : String)
  | respond (node : String) (place : Nat) (data : Bytes)
  | releaseHeld (node : String)
  | state (node remote : String)
  | nodeInfo (node : String)
  | announced (node : String)
  | close (node remote : String)
  | closeNode (node : String)
  | dropNode (node : String)
  | play (p : Performance)
  | look

inductive Outcome
  | nothing
  | refused (e : Error)
  | flag (b : Bool)
  | flags (bs : List Bool)
  | count (n : Nat)
  | address (a : Address)
  | identity (id : ShortId)
  | routes (nodes channels : Nat)
  | datagrams (ds : List Datagram)
  | result (r : Except Error Unit)
  | results (rs : List (Except Error Unit))
  | answer (r : Option (Except Error Bytes))
  | node (n : Node)
  /-- A conversation, whether it is the one known before, and whether it is with the right key. -/
  | connected (c : Conversation) (isSame isRight : Bool)
  | state (c : Option Conversation)
  | nodeInfo (n : Node) (live : List Conversation)
  /-- Identities that made contact, after a number of lost ones. -/
  | announced (lost : Nat) (ids : List ShortId)
  | sightings (l : List (Captured × Option Sighting))

namespace Scenario

/-- The bytes that a performance puts behind the receiver's id, and that id. -/
def payload? (K : KeyScheme) (s : Scenario) (p : Performance) (puppet : Puppet) (node : Node) :
    Option (ShortId × Bytes) :=
  if p.viaChannel then do
    let c ← s.conversation? K p.node p.puppet
    let keys ← puppet.channelKeys? K c.pair
    return (keys.outId, Envelope.lock keys.encrypt (p.content.elim Packet.encode fun b => b))
  else do
    let make (packet : Packet) := if p.isSigned then (puppet.sign K packet).encode else packet.encode
    return (node.id, ← puppet.lockFor K (node.own.key K) (p.content.elim make fun b => b))

def play (K : KeyScheme) (s : Scenario) (p : Performance) : Option (Outcome × Scenario) := do
  let (k, _, node) ← s.node? p.node
  let host ← s.network.hosts[k]?
  let puppet ← s.puppet? p.puppet
  let (id, payload) ← s.payload? K p puppet node
  let data := id.bytes.toList ++ p.damage payload
  let (arrived, network) := (List.range p.copies).foldl (fun (arrived, n) _ =>
    let (bound, n) := Network.arrive n (p.source.getD puppet.address) host.address data
    (arrived ++ [bound], n)) (([] : List Bool), s.network)
  return (.flags arrived, { s with network })

def connect (K : KeyScheme) (s : Scenario) (node remote : String) (addresses : Option AddressList) :
    Option (Outcome × Scenario) := do
  let (k, n, _) ← s.node? node
  let key ← s.key? K remote
  let addresses ← addresses.or (s.addresses? remote)
  let known := s.place? K node remote
  match s.onHost k (.error .io) fun h => h.connect n ⟨key, addresses⟩ s.network.date with
  | (.error e, s) => return (.refused e, s)
  | (.ok i, s) =>
    let c ← s.conversationAt? (k, i)
    return (.connected c (known = some (k, i)) (c.pair.remote.key = key),
      { s with connected := ((node, remote), k, i) :: s.connected })

def converse (K : KeyScheme) (s : Scenario) (k i : Nat) : Step → Option (Outcome × Scenario)
  | .send _ _ data =>
    let (results, network) := data.foldl (fun (results, n) d =>
      let (r, n) := Network.sendMessage K patience n k i d
      (results ++ [r], n)) (([] : List (Except Error Unit)), s.network)
    some (.results results, { s with network })
  | .query _ _ data timeout =>
    let (r, network) := s.network.query K patience k i data timeout
    some (.answer r, { s with network })
  | .startQuery _ _ data timeout tag =>
    let (id, s) := s.onHost k (Vector.replicate 32 0) fun h => h.startQuery i data timeout
    some (.nothing, { s with asked := (tag, k, i, id) :: s.asked })
  | .close _ _ => some (.flag true, s.changeHost k (·.close i))
  | _ => none

def manage (s : Scenario) (k n : Nat) (node : Node) : Step → Option (Outcome × Scenario)
  | .respond _ place data =>
    let (r, s) := s.onHost k false fun h => h.respond n place data
    some (.flag r, s)
  | .releaseHeld _ =>
    let (r, s) := s.onHost k 0 fun h => h.releaseHeld n
    some (.count r, s)
  | .nodeInfo _ => some (.nodeInfo node (s.liveConversations k node), s)
  | .announced _ =>
    let peers := node.announced.entries.filterMap fun i =>
      (s.conversationAt? (k, i)).map fun c => c.pair.remote.key.shortId
    some (.announced node.announced.lost peers, s.changeHost k (·.look n))
  | .closeNode _ => some (.flag true, s.changeHost k (·.closeNode n))
  | .dropNode _ =>
    if node.isDropped then some (.flag false, s)
    else some (.flag true, s.changeHost k (·.dropNode n))
  | _ => none

def attend (s : Scenario) (k l : Nat) : Step → Option (Outcome × Scenario)
  | .unlisten name =>
    some (.flag true, { s.changeHost k (·.unlisten l) with
      listeners := s.listeners.filter (·.1 != name) })
  | .closeListener _ => some (.flag true, s.changeHost k (·.modifyListener l Inbox.close))
  | .drain _ =>
    let (ds, s) := s.onHost k [] fun h =>
      ((h.listeners[l]?.map (·.inbox.datagrams)).getD [],
        h.modifyListener l fun i => { i with datagrams := [] })
    some (.datagrams ds, s)
  | _ => none

def operate (K : KeyScheme) (s : Scenario) (k : Nat) (h : Host) : Step → Option (Outcome × Scenario)
  | .shutDown _ => some (.flag true, s.changeHost k Host.shutDown)
  | .rate _ ip count =>
    let (rs, s) := (List.range count).foldl (fun (rs, s) _ =>
      let (r, s) := Scenario.onHost s k false fun h => h.checkRate s.network.elapsed ip
      (rs ++ [r], s)) (([] : List Bool), s)
    some (.flags rs, s)
  | .routes _ => some (.routes (h.routes.count .localNode) (h.routes.count .channel), s)
  | .listen _ name id kind capacity =>
    match s.tryHost k fun h => (h.listen id kind capacity).map fun h => ((), h) with
    | (.error e, s) => some (.refused e, s)
    | (.ok (), s) =>
      some (.identity id, { s with listeners := (name, k, h.listeners.length) :: s.listeners })
  | .sendTo _ id target data =>
    let (r, s) := s.tryHost k fun h => (h.sendTo id target data).map fun h => ((), h)
    some (.result r, s)
  | .node name _ options =>
    match s.tryHost k fun h => h.addNode K options s.network.date with
    | (.error e, s) => some (.refused e, s)
    | (.ok n, s) => do
      let node ← (← s.network.hosts[k]?).nodes[n]?
      return (.node node, { s with
        nodes := (name, k, n) :: s.nodes
        names := s.names ++ [(node.id, name)] })
  | _ => none

/-- Performs a step; nothing when it needs something that is not there. -/
def perform (K : KeyScheme) (supplies : Nat → Nat → Supply) (s : Scenario) (step : Step) :
    Option (Outcome × Scenario) :=
  match step with
  | .bind name address config =>
    match s.network.bind address config (supplies s.network.hosts.length) with
    | .error e => some (.refused e, s)
    | .ok (k, network) => some (.address address, { s with network, hosts := (name, k) :: s.hosts })
  | .shutDown host | .rate host _ _ | .routes host | .listen host _ _ _ _ | .sendTo host _ _ _
  | .node _ host _ => do
    let (k, h) ← s.host? host
    s.operate K k h step
  | .unlisten name | .closeListener name =>
    match s.listeners.lookup name with
    | some (k, l) => s.attend k l step
    | none => some (.flag false, s)
  | .drain name => do
    let (k, l) ← s.listeners.lookup name
    s.attend k l step
  | .inject source target data =>
    match s.network.arrive source target data with
    | (true, network) => some (.flag true, { s with network })
    | (false, _) => some (.flag false, s)
  | .disturb target => some (.flag (s.network.hostAt? target).isSome, s)
  | .link link => some (.nothing, { s with network := { s.network with link } })
  | .pause => some (.nothing, s)
  | .advance ms => some (.nothing, { s with network := s.network.advance K patience ms })
  | .setDate seconds => some (.nothing, { s with network := s.network.setDate seconds })
  | .puppet p =>
    some (.identity (p.id K), { s with
      puppets := p :: s.puppets
      names := s.names ++ [(p.id K, p.name)] })
  | .connect node remote addresses => s.connect K node remote addresses
  | .send node remote _ | .query node remote _ _ | .startQuery node remote _ _ _
  | .close node remote => do
    let (k, i) ← s.place? K node remote
    s.converse K k i step
  | .finishQuery tag =>
    some (.answer (do
      let (k, i, id) ← s.asked.lookup tag
      (← s.network.hosts[k]?).queryResult? i id), s)
  | .state node remote => some (.state (s.conversation? K node remote), s)
  | .respond node _ _ | .releaseHeld node | .nodeInfo node | .announced node | .closeNode node
  | .dropNode node => do
    let (k, n, node) ← s.node? node
    s.manage k n node step
  | .play p => s.play K p
  | .look =>
    let (l, s) := s.look K
    some (.sightings l, s)

end Scenario

end Adnl
