import Adnl.Pair.Send

/-! The messages of a pair that wait to be sent. -/
namespace Adnl

structure Outbox where
  capacity : Nat
  /-- Taken out for the last packet, which it did not fit into. -/
  pending : Option Message := none
  queue : List Message := []
  /-- Messages whose senders wait for room, longest waiting first. -/
  parked : List Message := []
deriving DecidableEq, Repr

namespace Outbox

def hasRoom (o : Outbox) : Bool := o.parked.isEmpty && o.queue.length < o.capacity

/-- Queues a message, or parks it until there is room. -/
def offer (o : Outbox) (m : Message) : Outbox :=
  if o.hasRoom then { o with queue := o.queue ++ [m] } else { o with parked := o.parked ++ [m] }

def room (o : Outbox) : Nat := min (o.capacity - o.queue.length) o.parked.length

def refill (o : Outbox) : Outbox :=
  { o with queue := o.queue ++ o.parked.take o.room, parked := o.parked.drop o.room }

/-- A query whose asker has stopped waiting for room is not sent. -/
def withdraw (o : Outbox) (id : Bytes32) : Outbox :=
  { o with parked := o.parked.filter (·.queryId? ≠ some id) }

/-- Whether the receiving side waits for room; it alone sends confirmations. -/
def receiverWaits (o : Outbox) : Bool := o.parked.any Pair.isConfirmation

def size (o : Outbox) : Nat := o.pending.toList.length + o.queue.length

/-- The message that opens the next packet: the one left over, then the head of the queue. -/
def first? (o : Outbox) : Option (Message × Outbox) :=
  match o.pending, o.queue with
  | some m, _ => some (m, { o with pending := none })
  | none, m :: queue => some (m, { o with queue })
  | none, [] => none

/-- Makes the next packet from a message and what fits of the queue; no packet for no message. -/
def pack (K : KeyScheme) (p : Pair) (o : Outbox) (first : Message) :
    Option Packet × Pair × Outbox :=
  let (c, p) := p.collect K first o.queue
  let o := { o with pending := c.overflow, queue := c.queue }
  if c.messages = [] then (none, p, o)
  else
    let (packet, p) := p.build K c.messages
    (some packet, p, o)

end Outbox

theorem Pair.takeFitting_length (mtu size : Nat) (queue : List Message) :
    ((takeFitting mtu size queue).overflow.toList.length + (takeFitting mtu size queue).queue.length)
      ≤ queue.length := by
  induction queue generalizing size with
  | nil => simp [takeFitting]
  | cons m queue ih =>
    rw [takeFitting]
    split
    · simp; omega
    · have h := ih (size + m.encodedLength)
      simp only [List.length_cons]
      omega

namespace Outbox

theorem size_of_first? {o o' : Outbox} {m : Message} (h : o.first? = some (m, o')) :
    o'.size + 1 = o.size := by
  obtain ⟨capacity, pending, queue, parked⟩ := o
  cases pending with
  | some a =>
    simp only [first?, Option.some.injEq, Prod.mk.injEq] at h
    obtain ⟨rfl, rfl⟩ := h
    simp [size]; omega
  | none =>
    cases queue with
    | nil => simp [first?] at h
    | cons a queue =>
      simp only [first?, Option.some.injEq, Prod.mk.injEq] at h
      obtain ⟨rfl, rfl⟩ := h
      simp [size]

theorem size_pack (K : KeyScheme) (p : Pair) (o : Outbox) (first : Message) :
    (o.pack K p first).2.2.size ≤ o.size := by
  have h : (o.pack K p first).2.2 =
      { o with pending := (p.collect K first o.queue).1.overflow,
               queue := (p.collect K first o.queue).1.queue } := by
    unfold pack
    split
    · next heq => simp [heq]; split <;> rfl
  rw [h]
  simp only [size, Pair.collect]
  have := Pair.takeFitting_length p.mtu
    (if p.headerSize + Bytes.total ((p.handshakeMessage K first).map Message.encodedLength) +
        first.encodedLength ≤ p.mtu
      then p.headerSize + Bytes.total ((p.handshakeMessage K first).map Message.encodedLength) +
        first.encodedLength
      else p.headerSize + Bytes.total ((p.handshakeMessage K first).map Message.encodedLength)) o.queue
  omega

end Outbox

end Adnl
