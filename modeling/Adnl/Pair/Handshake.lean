import Adnl.Pair.Basic

/-! The exchange of channel keys. -/
namespace Adnl.Pair

/--
Installs the channel towards a key of the peer and gives up the one before it. A repeated key only
counts as proof of readiness; another key has to come with a later date.
-/
def install (K : KeyScheme) (p : Pair) (routes : RouteTable) (key : Bytes32) (date : Int32)
    (ready : Bool) : Except Error Unit × Pair × RouteTable :=
  match p.channel with
  | some c =>
    if c.remoteKey = key then
      (.ok (), if ready then p.markReady else p, routes)
    else if date ≤ c.date then (.error (.packet (.staleChannel date c.date)), p, routes)
    else replace
  | none => replace
where
  replace :=
    match K.agree p.channelSeed ⟨key⟩ with
    | .error e => (.error (.crypto e), p, routes)
    | .ok secret =>
      let keys := ChannelKeys.derive secret (p.own.key K).shortId p.remote.key.shortId
      let routes := Channel.closeReplaced p.channel none routes
      match routes.register keys.inId .channel with
      | .error e => (.error e, p.dropChannel, routes)
      | .ok (ticket, routes) =>
        (.ok (), { p with channel := some ⟨key, date, keys, ticket, ready⟩ }, routes)

/-- Takes in an announcement; gives the confirmation to send. -/
def onCreateChannel (K : KeyScheme) (p : Pair) (routes : RouteTable) (key : Bytes32) (date : Int32) :
    Except Error Message × Pair × RouteTable :=
  match p.install K routes key date false with
  | (.error e, p, routes) => (.error e, p, routes)
  | (.ok (), p, routes) => (.ok (.confirmChannel (p.channelKey K) key p.channelDate), p, routes)

/-- Takes in a confirmation of the current channel key. -/
def onConfirmChannel (K : KeyScheme) (p : Pair) (routes : RouteTable) (key peerKey : Bytes32)
    (date : Int32) : Except Error Unit × Pair × RouteTable :=
  if peerKey = p.channelKey K then p.install K routes key date true
  else (.error (.packet .foreignConfirmation), p, routes)

end Adnl.Pair
