import Adnl.Proofs.Pair.Check
import Adnl.Proofs.Pair.Frame

/-! # Everything that can happen to a pair

A pair goes through events in any order, with any contents. What decides whether it takes a packet
in only moves onward: the peer's date never goes back, and while it stays the same no refused number
is accepted again. Unless a packet or a later date arrives, nothing changes what a pair takes in,
and only building a packet issues a number.
-/
namespace Adnl.Pair

/-- One thing that happens to a pair. The routing table at that moment is part of what happens. -/
inductive Event
  | packet (packet : Packet) (source : Address) (viaChannel : Bool) (now : Int32)
  | date (date now : Int32)
  | list (l : AddressList)
  | create (routes : RouteTable) (key : Bytes32) (date : Int32)
  | confirm (routes : RouteTable) (key peerKey : Bytes32) (date : Int32)
  | ready
  | close
  | collect (first : Message) (queue : List Message)
  | build (messages : List Message)
  | route (packet : Packet)
  | part (now : Nat) (hash : Bytes32) (totalSize offset : Int32) (data : Bytes)
  | drawFill

section
variable (K : KeyScheme)

def after (p : Pair) : Event → Pair
  | .packet packet source viaChannel now => (p.checkPacket K packet source viaChannel now).2
  | .date date now => (p.observeDate date now).2
  | .list l => p.updateList l
  | .create routes key date => (p.onCreateChannel K routes key date).2.1
  | .confirm routes key peerKey date => (p.onConfirmChannel K routes key peerKey date).2.1
  | .ready => p.markReady
  | .close => p.dropChannel
  | .collect first queue => (p.collect K first queue).2
  | .build messages => (p.build K messages).2
  | .route packet => (p.route K packet).2
  | .part now hash totalSize offset data =>
    { p with assembler := (p.assembler.accept now hash totalSize offset data).2 }
  | .drawFill => { p with supply := p.supply.drawFill.2 }

def run (p : Pair) (es : List Event) : Pair := es.foldl (after K) p

/-- The packet that an event brings, if it is accepted. -/
def taken? (p : Pair) : Event → Option Packet
  | .packet packet source viaChannel now =>
    match (p.checkPacket K packet source viaChannel now).1 with
    | .ok () => some packet
    | .error _ => none
  | _ => none

def accepted (p : Pair) : List Event → List Packet
  | [] => []
  | e :: es => (p.taken? K e).toList ++ accepted (p.after K e) es

end

theorem checkPacket_eq_of_timely {K : KeyScheme} {p : Pair} {packet : Packet} {viaChannel : Bool}
    {now : Int32} (ha : p.authenticate K packet viaChannel = .ok ()) (ht : p.Timely packet now)
    (source : Address) : ∃ addresses listAdopted peerKnownVersion observed received,
      (p.checkPacket K packet source viaChannel now).2 = { p.screened packet now with
        remote := { (p.screened packet now).remote with addresses }
        listAdopted, peerKnownVersion, observed, received } := by
  have hc := checkPacket_checked K p packet source viaChannel now
  generalize p.checkPacket K packet source viaChannel now = result at hc ⊢
  obtain ⟨_, hdeliver⟩ := (p.screened packet now).snd_deliver packet.seqno
  cases hc with
  | early _ _ h => exact (h.elim (· ha) (· ht)).elim
  | replayed => exact ⟨_, _, _, _, _, rfl⟩
  | unsent => exact ⟨_, _, _, _, _, hdeliver⟩
  | accepted =>
    obtain ⟨_, _, _, _, happly⟩ := ((p.screened packet now).deliver packet.seqno).2.applyHeader_eq
      packet ((p.dated packet now).screenLists packet.address now).1 source
    rw [happly, hdeliver]
    exact ⟨_, _, _, _, _, rfl⟩

/-- Everything but the arrival of a packet or of a later date. -/
def Event.isInner : Event → Bool
  | .packet .. => false
  | .date .. => false
  | _ => true

section
variable (K : KeyScheme) (p : Pair) {e : Event}

theorem after_eq_of_ne_build (h : e.isInner) (hb : ∀ ms, e ≠ .build ms) :
    ∃ addresses listAdopted channel createSent assembler supply, p.after K e =
      { p with
        remote := { p.remote with addresses }
        listAdopted, channel, createSent, assembler, supply } := by
  cases e with
  | packet => cases h
  | date => cases h
  | list l =>
    obtain ⟨_, _, hl⟩ := p.updateList_eq l
    exact ⟨_, _, _, _, _, _, hl⟩
  | create routes key date =>
    obtain ⟨_, hc⟩ := p.snd_onCreateChannel K routes key date
    exact ⟨_, _, _, _, _, _, hc⟩
  | confirm routes key peerKey date =>
    obtain ⟨_, hc⟩ := p.snd_onConfirmChannel K routes key peerKey date
    exact ⟨_, _, _, _, _, _, hc⟩
  | collect first queue => exact ⟨_, _, _, _, _, _, p.snd_collect K first queue⟩
  | build ms => exact absurd rfl (hb ms)
  | route packet =>
    obtain ⟨_, hr⟩ := p.snd_route K packet
    exact ⟨_, _, _, _, _, _, hr⟩
  | ready => exact ⟨_, _, _, _, _, _, rfl⟩
  | close => exact ⟨_, _, _, _, _, _, rfl⟩
  | part => exact ⟨_, _, _, _, _, _, rfl⟩
  | drawFill => exact ⟨_, _, _, _, _, _, rfl⟩

/-- What an inner event leaves alone is everything but these fields. -/
theorem after_eq (h : e.isInner) :
    ∃ addresses listAdopted sent channel createSent assembler supply, p.after K e =
      { p with
        remote := { p.remote with addresses }
        listAdopted, sent, channel, createSent, assembler, supply } := by
  by_cases hb : ∃ ms, e = .build ms
  · obtain ⟨ms, rfl⟩ := hb
    obtain ⟨_, hs⟩ := p.snd_build K ms
    exact ⟨_, _, _, _, _, _, _, hs⟩
  · obtain ⟨_, _, _, _, _, _, he⟩ := p.after_eq_of_ne_build K h (not_exists.1 hb)
    exact ⟨_, _, _, _, _, _, _, he⟩

theorem sent_after (h : e.isInner) (hb : ∀ ms, e ≠ .build ms) :
    (p.after K e).sent = p.sent := by
  obtain ⟨_, _, _, _, _, _, he⟩ := p.after_eq_of_ne_build K h hb
  rw [he]

end

/-- What decides whether packets are taken in, as far as it outlives an event. -/
structure Intake where
  own : LocalIdentity
  peer : PublicKey
  maxSkew : Int32
  date : Int32
  received : History

def intake (p : Pair) : Intake := ⟨p.own, p.remote.key, p.maxSkew, p.peerReinitDate, p.received⟩

namespace Intake

/-- Nothing that was refused becomes acceptable unless the date has grown. -/
structure Onward (i j : Intake) : Prop where
  own_eq : j.own = i.own
  peer_eq : j.peer = i.peer
  maxSkew_eq : j.maxSkew = i.maxSkew
  date_le : i.date ≤ j.date
  tracked : i.received.Tracked → j.received.Tracked
  refuses : i.received.Tracked → j.date = i.date →
    ∀ n, i.received.Refuses n → j.received.Refuses n

theorem Onward.refl (i : Intake) : i.Onward i where
  own_eq := rfl
  peer_eq := rfl
  maxSkew_eq := rfl
  date_le := Int32.le_refl _
  tracked := id
  refuses _ _ _ := id

theorem Onward.trans {i j k : Intake} (hij : i.Onward j) (hjk : j.Onward k) : i.Onward k where
  own_eq := hjk.own_eq.trans hij.own_eq
  peer_eq := hjk.peer_eq.trans hij.peer_eq
  maxSkew_eq := hjk.maxSkew_eq.trans hij.maxSkew_eq
  date_le := Int32.le_trans hij.date_le hjk.date_le
  tracked ht := hjk.tracked (hij.tracked ht)
  refuses ht hd n hn := by
    have hback : j.date ≤ i.date := hd ▸ hjk.date_le
    have hsame : j.date = i.date := Int32.le_antisymm hback hij.date_le
    exact hjk.refuses (hij.tracked ht) (hd.trans hsame.symm) n (hij.refuses ht hsame n hn)

end Intake

section
variable (p : Pair)

theorem onward_reinit {date : Int32} (h : p.peerReinitDate < date) (now : Int32) :
    p.intake.Onward (p.reinit date now).intake := by
  have hne : date ≠ p.peerReinitDate := fun he => Int32.lt_irrefl (he ▸ h)
  have hle : p.peerReinitDate ≤ date := Int32.le_of_lt h
  unfold reinit
  split_ifs
  · exact ⟨rfl, rfl, rfl, hle, id, fun _ hd => absurd hd hne⟩
  · exact ⟨rfl, rfl, rfl, hle, History.Tracked.reset, fun _ hd => absurd hd hne⟩

theorem onward_raise (date now : Int32) : p.intake.Onward (p.raise date now).intake := by
  rw [raise]
  split_ifs with h
  · exact p.onward_reinit h.2 now
  · exact .refl _

theorem onward_deliver (seqno : Option UInt64) :
    p.intake.Onward (p.deliver seqno).2.intake := by
  cases seqno with
  | none => exact .refl _
  | some m =>
    exact ⟨rfl, rfl, rfl, Int32.le_refl _, fun ht => ht.deliver m, fun ⟨_, hr⟩ _ _ hn =>
      hr.refuses_deliver m hn⟩

theorem onward_screened (packet : Packet) (now : Int32) :
    p.intake.Onward (p.screened packet now).intake := by
  apply screened_preserves (P := fun q => p.intake.Onward q.intake)
  · exact fun q date hq => hq.trans (q.onward_raise date now)
  · exact .refl _

theorem intake_applyHeader (packet : Packet) (l : Option AddressList) (source : Address) :
    (p.applyHeader packet l source).intake = p.intake := by
  obtain ⟨_, _, _, _, h⟩ := p.applyHeader_eq packet l source
  rw [h]
  rfl

theorem sent_applyHeader (packet : Packet) (l : Option AddressList) (source : Address) :
    (p.applyHeader packet l source).sent = p.sent := by
  obtain ⟨_, _, _, _, h⟩ := p.applyHeader_eq packet l source
  rw [h]

theorem intake_after (K : KeyScheme) {e : Event} (h : e.isInner) :
    (p.after K e).intake = p.intake := by
  obtain ⟨_, _, _, _, _, _, _, he⟩ := p.after_eq K h
  rw [he]
  rfl

theorem onward_checkPacket (K : KeyScheme) (packet : Packet) (source : Address)
    (viaChannel : Bool) (now : Int32) :
    p.intake.Onward (p.checkPacket K packet source viaChannel now).2.intake := by
  apply checkPacket_preserves (P := fun q => p.intake.Onward q.intake)
  · exact fun q date hq => hq.trans (q.onward_raise date now)
  · exact .refl _
  · exact fun q hq => hq.trans (q.onward_deliver packet.seqno)
  · intro q l hq
    rw [intake_applyHeader]
    exact hq

theorem onward_after (K : KeyScheme) (e : Event) : p.intake.Onward (p.after K e).intake := by
  have hinner (h : e.isInner) : p.intake.Onward (p.after K e).intake := by
    rw [p.intake_after K h]
    exact .refl _
  cases e with
  | packet packet source viaChannel now => exact p.onward_checkPacket K packet source viaChannel now
  | date date now =>
    rw [after, snd_observeDate]
    exact p.onward_raise date now
  | _ => exact hinner rfl

theorem onward_run (K : KeyScheme) (es : List Event) :
    p.intake.Onward (p.run K es).intake := by
  induction es generalizing p with
  | nil => exact .refl _
  | cons e es ih => exact (p.onward_after K e).trans (ih _)

end

end Adnl.Pair
