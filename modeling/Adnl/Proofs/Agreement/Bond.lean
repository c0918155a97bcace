import Adnl.Conversation.Relay
import Adnl.Pair.Handshake
import Adnl.Proofs.Channel.Directions
import Adnl.Proofs.Pair.Install
import Adnl.Proofs.Pair.Run
import Mathlib.Tactic

/-! # What a pair knows of a channel

Both ends derive their keys from one secret, the one as the mirror image of the other. As long as
neither end starts again, the only key that a pair installs a channel for is the other end's, and
the routing entry of the inbound id is there exactly while the channel is.
-/
namespace Adnl

/-- What an end starts with: an identity whose list is not dated after it, a list of the peer's
addresses, and the routing table of its host. -/
structure Opening where
  node : Nat
  own : LocalIdentity
  known : AddressList
  config : Config
  start : Int32
  supply : Supply
  routes : RouteTable
  list_le : own.addresses.reinitDate ≤ own.reinitDate

namespace Opening

/-- A new pair for the peer with the given key. -/
def pair (o : Opening) (peer : PublicKey) : Pair :=
  .new o.own ⟨peer, o.known⟩ o.config o.start o.supply

def channelSeed (o : Opening) : Bytes32 := o.supply.drawKey.1

def channelKey (K : KeyScheme) (o : Opening) : Bytes32 := (K.publicKey o.channelSeed).bytes

def keys (K : KeyScheme) (secret : Bytes32) (o o' : Opening) : ChannelKeys :=
  .derive secret (o.own.key K).shortId (o'.own.key K).shortId

theorem keys_swap (K : KeyScheme) (secret : Bytes32) (o o' : Opening) :
    o'.keys K secret o = (o.keys K secret o').mirror :=
  ChannelKeys.derive_swap _ _ _

end Opening

/-- What a pair's channel comes from. -/
structure Bond where
  own : LocalIdentity
  peer : PublicKey
  date : Int32
  channelSeed : Bytes32
  channel : Option Channel

def Pair.bond (p : Pair) : Bond :=
  ⟨p.own, p.remote.key, p.peerReinitDate, p.channelSeed, p.channel⟩

/-- A channel for a key of the peer, with its entry in the routing table. It is ready only if the
peer has answered with a channel of its own. -/
structure Channel.Settled (remoteKey : Bytes32) (keys : ChannelKeys) (answered : Prop)
    (routes : RouteTable) (c : Channel) : Prop where
  remoteKey_eq : c.remoteKey = remoteKey
  keys_eq : c.keys = keys
  entry : routes.get? keys.inId = some ⟨.channel, c.ticket⟩
  answered : c.ready → answered

section
variable (K : KeyScheme) (secret : Bytes32) (o o' : Opening) (answered : Prop)

/-- What holds of a pair of the end `o` with the end `o'`, which is not known by another date than
its own. -/
structure Bond.Settled (routes : RouteTable) (b : Bond) : Prop where
  own : b.own = o.own
  peer : b.peer = o'.own.key K
  date : b.date = 0 ∨ b.date = o'.own.reinitDate
  channelSeed : b.channelSeed = o.channelSeed
  free : b.channel = none → routes.get? (o.keys K secret o').inId = none
  channel : ∀ c, b.channel = some c →
    c.Settled (o'.channelKey K) (o.keys K secret o') answered routes

end

variable {K : KeyScheme} {secret : Bytes32} {o o' : Opening} {answered : Prop} {p : Pair}
  {routes : RouteTable}

theorem settled_pair (hfree : o.routes.get? (o.keys K secret o').inId = none) :
    (o.pair (o'.own.key K)).bond.Settled K secret o o' answered o.routes where
  own := rfl
  peer := rfl
  date := .inl rfl
  channelSeed := rfl
  free _ := hfree
  channel _ h := by cases h

namespace Bond.Settled

variable {b : Bond}

theorem mono (h : b.Settled K secret o o' answered routes) {answered' : Prop}
    (ha : answered → answered') : b.Settled K secret o o' answered' routes :=
  { h with
    channel := fun c hc =>
      have hsettled := h.channel c hc
      { hsettled with answered := fun hr => ha (hsettled.answered hr) } }

theorem reroute (h : b.Settled K secret o o' answered routes) {routes' : RouteTable}
    (heq : routes'.get? (o.keys K secret o').inId = routes.get? (o.keys K secret o').inId) :
    b.Settled K secret o o' answered routes' :=
  { h with
    free := fun hnone => heq.trans (h.free hnone)
    channel := fun c hc =>
      have hsettled := h.channel c hc
      { hsettled with entry := heq.trans hsettled.entry } }

theorem withChannel (h : b.Settled K secret o o' answered routes) {c : Channel}
    {routes' : RouteTable}
    (hc : c.Settled (o'.channelKey K) (o.keys K secret o') answered routes') :
    ({ b with channel := some c } : Bond).Settled K secret o o' answered routes' :=
  { h with
    free := fun hnone => by cases hnone
    channel := fun _ heq => Option.some.inj heq ▸ hc }

theorem withDate (h : b.Settled K secret o o' answered routes) {date : Int32}
    (hd : date = 0 ∨ date = o'.own.reinitDate) :
    ({ b with date } : Bond).Settled K secret o o' answered routes :=
  { h with date := hd }

theorem channelKey_eq (h : p.bond.Settled K secret o o' answered routes) :
    p.channelKey K = o.channelKey K :=
  congrArg (fun seed => (K.publicKey seed).bytes) h.channelSeed

theorem markReady (h : p.bond.Settled K secret o o' answered routes) (ha : answered) :
    p.markReady.bond.Settled K secret o o' answered routes := by
  cases hc : p.channel with
  | none =>
    have hsame : p.markReady.bond = p.bond := by simp [Pair.markReady, Pair.bond, hc]
    rwa [hsame]
  | some c =>
    have hsettled := h.channel c hc
    have hready : p.markReady.bond = { p.bond with channel := some { c with ready := true } } := by
      simp [Pair.markReady, Pair.bond, hc]
    rw [hready]
    exact h.withChannel { hsettled with answered := fun _ => ha }

end Bond.Settled

theorem Pair.install_first {key : Bytes32} {keys : ChannelKeys} (hnone : p.channel = none)
    (hagree : K.agree p.channelSeed ⟨key⟩ = .ok secret)
    (hkeys : ChannelKeys.derive secret (p.own.key K).shortId p.remote.key.shortId = keys)
    (hfree : routes.get? keys.inId = none) (date : Int32) (ready : Bool) :
    ∃ c routes', p.install K routes key date ready =
        (.ok (), { p with channel := some c }, routes') ∧ c.ready = ready ∧
      c.Settled key keys (ready = true) routes' := by
  have hregister : routes.register keys.inId .channel = .ok (routes.issued,
      ⟨(keys.inId, ⟨.channel, routes.issued⟩) :: routes.entries, routes.issued + 1⟩) := by
    rw [RouteTable.register, hfree]
  refine ⟨⟨key, date, keys, routes.issued, ready⟩,
    ⟨(keys.inId, ⟨.channel, routes.issued⟩) :: routes.entries, routes.issued + 1⟩, ?_, rfl, ?_⟩
  · simp only [install, hnone, install.replace, hagree, hkeys, Channel.closeReplaced, hregister]
  · exact ⟨rfl, rfl, by simp [RouteTable.get?], id⟩

theorem Pair.install_again {c : Channel} {key : Bytes32} (hc : p.channel = some c)
    (hkey : c.remoteKey = key) (date : Int32) (ready : Bool) :
    p.install K routes key date ready =
      (.ok (), { p with channel := some { c with ready := c.ready || ready } }, routes) := by
  have hnew : (if ready then p.markReady else p) =
      { p with channel := some { c with ready := c.ready || ready } } := by
    cases ready with
    | true => simp [markReady, hc]
    | false => simp [← hc]
  rw [← hkey, install_known _ _ _ _ hc, hnew]

/-- The key of the other end is never refused: either the channel with it is there already, or the
id is still free. -/
theorem Bond.Settled.install (h : p.bond.Settled K secret o o' answered routes)
    (hagree : K.agree o.channelSeed ⟨o'.channelKey K⟩ = .ok secret) (date : Int32) (ready : Bool)
    (hready : ready → answered) :
    ∃ c routes', p.install K routes (o'.channelKey K) date ready =
        (.ok (), { p with channel := some c }, routes') ∧ c.ready = (p.channelReady || ready) ∧
      Channel.closeReplaced p.channel (some c) routes' = routes' ∧
      c.Settled (o'.channelKey K) (o.keys K secret o') answered routes' := by
  cases hc : p.channel with
  | none =>
    have hown : p.own = o.own := h.own
    have hpeer : p.remote.key = o'.own.key K := h.peer
    have hseed : p.channelSeed = o.channelSeed := h.channelSeed
    have hkeys : ChannelKeys.derive secret (p.own.key K).shortId p.remote.key.shortId =
        o.keys K secret o' := by
      rw [hown, hpeer, Opening.keys]
    have hnone : p.channelReady = false := by simp [Pair.channelReady, hc]
    obtain ⟨c, routes', hinstall, hnew, hsettled⟩ :=
      Pair.install_first hc (hseed ▸ hagree) hkeys (h.free hc) date ready
    refine ⟨c, routes', hinstall, ?_, rfl,
      { hsettled with answered := fun hr => hready (hsettled.answered hr) }⟩
    rw [hnew, hnone, Bool.false_or]
  | some c =>
    have hsettled := h.channel c hc
    have hanswered : (c.ready || ready) = true → answered := by
      rw [Bool.or_eq_true]
      exact fun hor => hor.elim hsettled.answered hready
    refine ⟨{ c with ready := c.ready || ready }, routes,
      Pair.install_again hc hsettled.remoteKey_eq date ready, ?_, ?_,
      { hsettled with answered := hanswered }⟩
    · simp [Pair.channelReady, hc]
    · simp [Channel.closeReplaced]

/-- The header of a packet of the end `o'` brings no other date than the end's. -/
structure Packet.Dated (o' : Opening) (packet : Packet) : Prop where
  dates : ∃ receiver, packet.reinitDates = some ⟨o'.own.reinitDate, receiver⟩
  list : ∀ l, packet.address = some l → l.reinitDate ≤ o'.own.reinitDate

namespace Pair

theorem bond_applyHeader (p : Pair) (packet : Packet) (l : Option AddressList)
    (source : Address) : (p.applyHeader packet l source).bond = p.bond := by
  cases l with
  | none => rfl
  | some l =>
    change (p.adoptList l).bond = p.bond
    rw [adoptList]
    split_ifs <;> rfl

theorem bond_deliver (p : Pair) (seqno : Option UInt64) : (p.deliver seqno).2.bond = p.bond := by
  cases seqno <;> rfl

theorem bond_updateList (p : Pair) (l : AddressList) : (p.updateList l).bond = p.bond := by
  rw [updateList, Descriptor.update]
  cases l.isNewerThan p.remote.addresses <;> rfl

theorem bond_raise {p : Pair} {date : Int32} (h : p.peerReinitDate = 0 ∨ p.peerReinitDate = date)
    (now : Int32) :
    ∃ d, (d = 0 ∨ d = date) ∧ (p.raise date now).bond = { p.bond with date := d } := by
  rw [raise]
  split_ifs with hraise
  · -- The first date heard is only remembered, and no later one comes.
    obtain hz | hsame := h
    · exact ⟨date, .inr rfl, by rw [reinit_of_eq_zero hz]; rfl⟩
    · exact absurd (hsame ▸ hraise.2) (Int32.lt_irrefl)
  · exact ⟨p.peerReinitDate, h, rfl⟩

theorem bond_screened {p : Pair} {packet : Packet} {now : Int32} (hp : packet.Dated o')
    (h : p.peerReinitDate = 0 ∨ p.peerReinitDate = o'.own.reinitDate)
    (ht : p.Timely packet now) :
    ∃ d, (d = 0 ∨ d = o'.own.reinitDate) ∧
      (p.screened packet now).bond = { p.bond with date := d } := by
  obtain ⟨receiver, hdates⟩ := hp.dates
  obtain ⟨-, hf, hle⟩ := ht _ hdates
  obtain ⟨d, hd, hbond⟩ := bond_raise h now
  refine ⟨d, hd, ?_⟩
  rw [screened, dated_of_timely ht hdates, snd_screenLists]
  cases hl : packet.address with
  | none => exact hbond
  | some l =>
    have hlist : l.reinitDate ≤ (p.raise o'.own.reinitDate now).peerReinitDate := by
      rw [peerReinitDate_raise hf hle]
      exact hp.list l hl
    exact (congrArg bond (raise_of_le hlist now)).trans hbond

end Pair

/-- A packet of the other end changes nothing of a channel. -/
theorem Bond.Settled.checkPacket (h : p.bond.Settled K secret o o' answered routes)
    {packet : Packet} (hp : packet.Dated o') (source : Address) (viaChannel : Bool) (now : Int32) :
    (p.checkPacket K packet source viaChannel now).2.bond.Settled K secret o o' answered routes ∧
      (p.checkPacket K packet source viaChannel now).2.channel = p.channel := by
  have hscreened (ht : p.Timely packet now) :
      (p.screened packet now).bond.Settled K secret o o' answered routes ∧
        (p.screened packet now).channel = p.channel := by
    obtain ⟨d, hd, hbond⟩ := Pair.bond_screened hp h.date ht
    exact ⟨hbond ▸ h.withDate hd, congrArg Bond.channel hbond⟩
  have hc := Pair.checkPacket_checked K p packet source viaChannel now
  generalize p.checkPacket K packet source viaChannel now = result at hc ⊢
  cases hc with
  | early => exact ⟨h, rfl⟩
  | replayed n ht => exact hscreened ht
  | unsent c ht =>
    have hbond := (p.screened packet now).bond_deliver packet.seqno
    refine ⟨?_, (congrArg Bond.channel hbond).trans (hscreened ht).2⟩
    rw [hbond]
    exact (hscreened ht).1
  | accepted _ ht =>
    have hbond := (Pair.bond_applyHeader ((p.screened packet now).deliver packet.seqno).2 packet
      ((p.dated packet now).screenLists packet.address now).1 source).trans
      ((p.screened packet now).bond_deliver packet.seqno)
    refine ⟨?_, (congrArg Bond.channel hbond).trans (hscreened ht).2⟩
    rw [hbond]
    exact (hscreened ht).1

end Adnl
