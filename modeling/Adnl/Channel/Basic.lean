import Adnl.Channel.Keys
import Adnl.RouteTable

/-! An installed channel of a pair. -/
namespace Adnl

structure Channel where
  remoteKey : Bytes32
  /-- The date of the announcement that installed it. -/
  date : Int32
  keys : ChannelKeys
  /-- Owns the routing entry of the inbound id. -/
  ticket : Nat
  /-- The peer has shown that it holds the keys. -/
  ready : Bool
deriving DecidableEq, Repr

namespace Channel

/-- Frees the routing entry of a channel that is given up. -/
def close (c : Channel) (routes : RouteTable) : RouteTable := routes.release c.keys.inId c.ticket

/-- Frees the entry of a channel that was installed before and is not any more. -/
def closeReplaced (before after : Option Channel) (routes : RouteTable) : RouteTable :=
  match before with
  | none => routes
  | some c => if after.map Channel.ticket = some c.ticket then routes else c.close routes

end Channel

end Adnl
