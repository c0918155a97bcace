import Adnl.Conversation.Outbox
import Adnl.Pair.Handshake
import Adnl.Pair.Receive

/-!
A pair on its own, played step by step: packets are given to it and taken from it by hand, and the
routing table that its channels register in can be tampered with.
-/
namespace Adnl

structure Bench where
  pair : Pair
  routes : RouteTable := {}
  /-- Entries registered by hand. -/
  occupied : List (ShortId × Nat) := []
  queue : List Message := []
  pending : Option Message := none
  collected : List Message := []
  built : Option Packet := none

namespace Bench

inductive Step
  | recv (packet : Packet) (source : Address) (viaChannel : Bool) (now : Int32)
  | observeDate (date now : Int32)
  | updateList (l : AddressList)
  | create (key : Bytes32) (date : Int32)
  | confirm (key peerKey : Bytes32) (date : Int32)
  | markReady
  | close
  /-- Takes the inbound id of the channel towards a key. -/
  | occupy (key : Bytes32) (kind : RouteKind)
  | release
  | enqueue (messages : List Message)
  | collect (first : Option Message)
  | build (messages : Option (List Message))
  | route
  | drawNumbers (count : Nat)
  | part (hash : Bytes32) (totalSize offset : Int32) (data : Bytes)

inductive Outcome
  | nothing
  | checked (r : Except PacketDrop Unit)
  | done (r : Except Error Unit)
  | confirmation (r : Except Error Message)
  | flag (b : Bool)
  /-- Messages, the one left over, and how many are left in the queue. -/
  | collected (messages : List Message) (pending : Option Message) (queued : Nat)
  | packet (p : Packet)
  | outgoing (r : Except Error Outgoing)
  | number (n : UInt64)
  | part (r : PartOutcome)

/-- The pair has changed; the routing entry of a channel given up on the way is freed. -/
def become (b : Bench) (p : Pair) : Bench :=
  { b with pair := p, routes := Channel.closeReplaced b.pair.channel p.channel b.routes }

def occupy (K : KeyScheme) (b : Bench) (key : Bytes32) (kind : RouteKind) : Except Error Bench :=
  match K.agree b.pair.channelSeed ⟨key⟩ with
  | .error e => .error (.crypto e)
  | .ok secret => do
    let keys := ChannelKeys.derive secret (b.pair.own.key K).shortId b.pair.remote.key.shortId
    let (ticket, routes) ← b.routes.register keys.inId kind
    return { b with routes, occupied := (keys.inId, ticket) :: b.occupied }

/-- The message that opens the next packet: the one given, the one left over, or the queue's. -/
def first? (b : Bench) (given : Option Message) : Option (Message × Bench) :=
  match given, b.pending, b.queue with
  | some m, _, _ => some (m, b)
  | none, some m, _ => some (m, { b with pending := none })
  | none, none, m :: queue => some (m, { b with queue })
  | none, none, [] => none

def collect (K : KeyScheme) (b : Bench) (given : Option Message) : Outcome × Bench :=
  match b.first? given with
  | none => (.nothing, b)
  | some (first, b) =>
    let (c, pair) := b.pair.collect K first b.queue
    let pending := c.overflow.or b.pending
    (.collected c.messages pending c.queue.length,
      { b with pair, pending, queue := c.queue, collected := c.messages })

def perform (K : KeyScheme) (b : Bench) : Step → Outcome × Bench
  | .recv packet source viaChannel now =>
    let (r, p) := b.pair.checkPacket K packet source viaChannel now
    (.checked r, b.become p)
  | .observeDate date now =>
    let (r, p) := b.pair.observeDate date now
    (.checked r, b.become p)
  | .updateList l => (.nothing, b.become (b.pair.updateList l))
  | .create key date =>
    let (r, pair, routes) := b.pair.onCreateChannel K b.routes key date
    (.confirmation r, { b with pair, routes })
  | .confirm key peerKey date =>
    let (r, pair, routes) := b.pair.onConfirmChannel K b.routes key peerKey date
    (.done r, { b with pair, routes })
  | .markReady => (.flag b.pair.channel.isSome, b.become b.pair.markReady)
  | .close => (.nothing, b.become b.pair.dropChannel)
  | .occupy key kind =>
    match b.occupy K key kind with
    | .error e => (.done (.error e), b)
    | .ok b => (.done (.ok ()), b)
  | .release =>
    (.nothing, { b with
      routes := b.occupied.foldl (fun r (id, ticket) => r.release id ticket) b.routes
      occupied := [] })
  | .enqueue messages => (.nothing, { b with queue := b.queue ++ messages })
  | .collect given => b.collect K given
  | .build given =>
    let (packet, pair) := b.pair.build K (given.getD b.collected)
    (.packet packet, { b with
      pair
      built := some packet
      collected := if given.isSome then b.collected else [] })
  | .route =>
    match b.built with
    | none => (.nothing, b)
    | some packet =>
      let (r, p) := b.pair.route K packet
      (.outgoing r, b.become p)
  | .drawNumbers count =>
    let (n, sent) := (List.range count).foldl (fun (_, h) _ => History.next h)
      ((0 : UInt64), b.pair.sent)
    (.number n, { b with pair := { b.pair with sent } })
  | .part hash totalSize offset data =>
    let (r, assembler) := b.pair.assembler.accept 0 hash totalSize offset data
    (.part r, { b with pair := { b.pair with assembler } })

end Bench

end Adnl
