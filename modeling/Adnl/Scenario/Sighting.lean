import Adnl.Scenario.Basic

/-! Reading the datagrams that have been captured, as far as they are for puppets. -/
namespace Adnl

structure Sighting where
  viaChannel : Bool
  packet : Packet
  /-- The channel key of the sending pair as it is now. -/
  own : Option Bytes32
  /-- The channel key of the puppet. -/
  theirs : Bytes32
deriving DecidableEq, Repr

namespace Scenario

def sightPlain? (K : KeyScheme) (s : Scenario) (p : Puppet) (payload : Bytes) : Option Sighting := do
  let packet ← p.readPlain? K payload
  let own := do
    let c ← s.conversation? K (s.nameOf (← packet.senderName)) p.name
    return c.pair.channelKey K
  return ⟨false, packet, own, p.channelKey K⟩

def sightChannel? (K : KeyScheme) (s : Scenario) (id : ShortId) (payload : Bytes) (node : String)
    (p : Puppet) : Option Sighting := do
  let c ← s.conversation? K node p.name
  let keys ← p.channelKeys? K c.pair
  if keys.inId = id then
    return ⟨true, ← keys.read? payload, some (c.pair.channelKey K), p.channelKey K⟩
  else none

/-- Finds the puppet that a datagram is for by the id in front of it. -/
def sight? (K : KeyScheme) (s : Scenario) (data : Bytes) : Option Sighting := do
  let id : ShortId := ⟨← Bytes.toVector? 32 (data.take 32)⟩
  let payload := data.drop 32
  match s.puppets.find? (·.id K = id) with
  | some p => s.sightPlain? K p payload
  | none =>
    s.nodes.findSome? fun (node, _) => s.puppets.findSome? (s.sightChannel? K id payload node)

/-- Numbers the queries of a packet that are seen for the first time. -/
def noteQueries (s : Scenario) (packet : Packet) : Scenario :=
  (packet.allMessages.filterMap Message.queryId?).foldl
    (fun s id => if s.seen.contains id then s else { s with seen := s.seen ++ [id] }) s

/-- Everything captured since the last look, with what can be read of it. -/
def look (K : KeyScheme) (s : Scenario) : List (Captured × Option Sighting) × Scenario :=
  let (captured, network) := s.network.takeCaptured
  let s := { s with network }
  let sightings := captured.map fun c => (c, s.sight? K c.data)
  (sightings, sightings.foldl (fun s (_, seen) =>
    match seen with
    | some seen => s.noteQueries seen.packet
    | none => s) s)

end Scenario

end Adnl
