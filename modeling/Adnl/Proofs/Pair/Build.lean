import Adnl.Proofs.Codec.RoundTrip
import Adnl.Proofs.Pair.Frame
import Mathlib.Tactic

/-! # What a pair puts into a packet

The messages are a handshake message, the one that opens the packet and as much of the queue as
fits. The header is read off the pair. Outside the channel the sender's key and, unless the peer has
it, the own list are added, and the whole is signed.
-/
namespace Adnl

namespace Pair

/-- The size of a packet that carries nothing but the handshake message. -/
def baseSize (K : KeyScheme) (p : Pair) (first : Message) : Nat :=
  p.headerSize + Bytes.total ((p.handshakeMessage K first).map Message.encodedLength)

/-- The opening message has room beside the handshake message. -/
def Fits (K : KeyScheme) (p : Pair) (first : Message) : Prop :=
  p.baseSize K first + first.encodedLength ≤ p.mtu

section
variable {K : KeyScheme} {p : Pair} {first : Message}

theorem fst_collect_of_fits (h : p.Fits K first) (queue : List Message) :
    (p.collect K first queue).1 =
      let c := takeFitting p.mtu (p.baseSize K first + first.encodedLength) queue
      { c with messages := p.handshakeMessage K first ++ first :: c.messages } := by
  have h' : p.headerSize + Bytes.total ((p.handshakeMessage K first).map Message.encodedLength) +
      first.encodedLength ≤ p.mtu := h
  simp [collect, h', baseSize]

theorem fst_collect_of_not_fits (h : ¬ p.Fits K first) (queue : List Message) :
    (p.collect K first queue).1 =
      let c := takeFitting p.mtu (p.baseSize K first) queue
      { c with messages := p.handshakeMessage K first ++ c.messages } := by
  have h' : ¬ p.headerSize + Bytes.total ((p.handshakeMessage K first).map Message.encodedLength) +
      first.encodedLength ≤ p.mtu := h
  simp only [collect, h', baseSize, if_false, List.append_nil]

/-- What is taken, what did not fit and what is left are the queue, in order. -/
theorem takeFitting_partition (mtu size : Nat) (queue : List Message) :
    (takeFitting mtu size queue).messages ++ ((takeFitting mtu size queue).overflow.toList ++
      (takeFitting mtu size queue).queue) = queue := by
  induction queue generalizing size with
  | nil => rfl
  | cons m queue ih =>
    rw [takeFitting]
    split_ifs
    · rfl
    · exact congrArg (m :: ·) (ih _)

theorem mem_collect {m : Message} {queue : List Message}
    (h : m ∈ (p.collect K first queue).1.messages) :
    m ∈ p.handshakeMessage K first ∨ m = first ∨ m ∈ queue := by
  have htake (size : Nat) (hm : m ∈ (takeFitting p.mtu size queue).messages) : m ∈ queue := by
    rw [← takeFitting_partition p.mtu size queue]
    exact List.mem_append_left _ hm
  by_cases hfits : p.Fits K first
  · rw [fst_collect_of_fits hfits] at h
    obtain hhead | hrest := List.mem_append.1 h
    · exact .inl hhead
    · obtain rfl | hqueue := List.mem_cons.1 hrest
      · exact .inr (.inl rfl)
      · exact .inr (.inr (htake _ hqueue))
  · rw [fst_collect_of_not_fits hfits] at h
    exact (List.mem_append.1 h).imp_right fun hqueue => .inr (htake _ hqueue)

end

def header (p : Pair) : Packet where
  rand1 := p.supply.drawPadding.1
  rand2 := p.supply.drawPadding.2.drawPadding.1
  seqno := some p.sent.next.1
  confirmSeqno := some p.received.last
  reinitDates := some ⟨p.own.reinitDate, p.peerReinitDate⟩
  knownVersion := if p.listAdopted then some p.remote.addresses.version else none

/-- The own list, unless the peer says that it has it. -/
def offeredList (p : Pair) : Option AddressList :=
  if p.peerKnownVersion = some p.own.addresses.version then none else some p.own.addresses

theorem offeredList_eq_some {p : Pair} {l : AddressList} (h : p.offeredList = some l) :
    l = p.own.addresses := by
  rw [offeredList] at h
  split_ifs at h
  exact (Option.some.inj h).symm

def openHeader (K : KeyScheme) (p : Pair) : Packet :=
  { p.header with sender := some (p.own.key K), address := p.offeredList }

theorem fst_build (K : KeyScheme) (p : Pair) (ms : List Message) :
    (p.build K ms).1 =
      if p.channelReady then p.header.setMessages ms
      else ((p.openHeader K).setMessages ms).sign K p.own.seed := by
  match ms with
  | [] => rfl
  | [_] => rfl
  | _ :: _ :: _ => rfl

theorem allMessages_build (K : KeyScheme) (p : Pair) (ms : List Message) :
    (p.build K ms).1.allMessages = ms := by
  rw [fst_build]
  split_ifs
  · exact Packet.allMessages_setMessages _ _
  · exact Packet.allMessages_setMessages (p.openHeader K) ms

end Pair

end Adnl
