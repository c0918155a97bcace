import Adnl.Network.Run
import Adnl.Scenario.Puppet

/-!
A network whose parts have names, to be played step by step. Where something has been named twice
the later one is meant.
-/
namespace Adnl

structure Scenario where
  network : Network
  hosts : List (String × Nat) := []
  /-- Host and place of each node. -/
  nodes : List (String × Nat × Nat) := []
  puppets : List Puppet := []
  listeners : List (String × Nat × Nat) := []
  /-- The names of identities; here the earlier one is meant. -/
  names : List (ShortId × String) := []
  /-- Host and place of the conversation that two names were last connected by. -/
  connected : List ((String × String) × Nat × Nat) := []
  /-- Host, conversation and id of the queries in the background. -/
  asked : List (String × Nat × Nat × Bytes32) := []
  /-- The ids of the queries that have been seen leaving, in order. -/
  seen : List Bytes32 := []

namespace Scenario

/-- More turns than a step leads to. -/
def patience : Nat := 1000000

def nameOf (s : Scenario) (id : ShortId) : String := (s.names.lookup id).getD id.text

def host? (s : Scenario) (name : String) : Option (Nat × Host) := do
  let k ← s.hosts.lookup name
  return (k, ← s.network.hosts[k]?)

def node? (s : Scenario) (name : String) : Option (Nat × Nat × Node) := do
  let (k, n) ← s.nodes.lookup name
  return (k, n, ← (← s.network.hosts[k]?).nodes[n]?)

def puppet? (s : Scenario) (name : String) : Option Puppet := s.puppets.find? (·.name = name)

def key? (K : KeyScheme) (s : Scenario) (name : String) : Option PublicKey :=
  match s.puppet? name with
  | some p => some (p.key K)
  | none => (s.node? name).map fun (_, _, node) => node.own.key K

def addresses? (s : Scenario) (name : String) : Option AddressList :=
  match s.puppet? name with
  | some p => some (.ofAddress p.address)
  | none => (s.node? name).map fun (_, _, node) => node.own.addresses

/-- The conversation of a node with a remote: the live one, else the one connected last. -/
def place? (K : KeyScheme) (s : Scenario) (node remote : String) : Option (Nat × Nat) := do
  let (k, n, _) ← s.node? node
  let key ← s.key? K remote
  match (← s.network.hosts[k]?).live? n key.shortId with
  | some i => some (k, i)
  | none => s.connected.lookup (node, remote)

def conversationAt? (s : Scenario) (place : Nat × Nat) : Option Conversation := do
  (← s.network.hosts[place.1]?).conversations[place.2]?

def conversation? (K : KeyScheme) (s : Scenario) (node remote : String) : Option Conversation := do
  s.conversationAt? (← s.place? K node remote)

def liveConversations (s : Scenario) (k : Nat) (node : Node) : List Conversation :=
  node.peers.filterMap fun (_, i) => (s.conversationAt? (k, i)).filter (!·.isClosed)

def onHost {α : Type} (s : Scenario) (k : Nat) (absent : α) (f : Host → α × Host) : α × Scenario :=
  let (a, network) := s.network.onHost k absent f
  (a, { s with network })

def tryHost {α : Type} (s : Scenario) (k : Nat) (f : Host → Except Error (α × Host)) :
    Except Error α × Scenario :=
  s.onHost k (.error .io) fun h =>
    match f h with
    | .ok (a, h) => (.ok a, h)
    | .error e => (.error e, h)

def changeHost (s : Scenario) (k : Nat) (f : Host → Host) : Scenario :=
  { s with network := s.network.changeHost k f }

def settle (K : KeyScheme) (s : Scenario) : Scenario :=
  { s with network := s.network.settle K patience }

/-- The handlers called since the last look, each with the name of its node. -/
def takeEvents (s : Scenario) : List (String × Event) × Scenario :=
  let (events, network) := s.network.takeEvents
  let name (k n : Nat) := ((s.nodes.find? fun e => e.2 = (k, n)).map (·.1)).getD ""
  (events.map fun (k, e) => (name k e.node, e), { s with network })

end Scenario

end Adnl
