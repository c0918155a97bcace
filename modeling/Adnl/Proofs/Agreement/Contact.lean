import Adnl.Proofs.Agreement.Turns

/-! # Both ends of a channel hold the same keys

Two conversations with each other take turns, and a network between them brings to each what the
other has built, in any order, late, more than once or not at all. Neither starts again or closes.
An end has a ready channel only once the other end has installed the channel that mirrors it.
-/
namespace Adnl

structure Letter where
  packet : Packet
  /-- The keys of the channel that it leaves through, if it leaves through one. -/
  via : Option ChannelKeys

/-- What the channel makes of the packet. -/
def Letter.datagram (l : Letter) (keys : ChannelKeys) : Bytes :=
  keys.outId.bytes.toList ++ Envelope.lock keys.encrypt l.packet.encode

/-- What is read is the packet that was written, if anything is. -/
def Letter.Intact (l : Letter) : Prop :=
  ∀ packet, Packet.decode l.packet.encode = .ok packet → packet = l.packet

instance (l : Letter) : Decidable l.Intact :=
  match h : Packet.decode l.packet.encode with
  | .ok packet => decidable_of_iff (packet = l.packet)
      ⟨fun heq _ hp => (Except.ok.inj (h.symm.trans hp)).symm.trans heq, fun hall => hall packet h⟩
  | .error _ => isTrue fun _ hp => by cases h.symm.trans hp

/-- One end: its conversation, and what it has built so far, the first packet first. -/
structure Caller where
  turn : Turn
  letters : List Letter

namespace Caller

def pair (e : Caller) : Pair := e.turn.conversation.pair

def withTurn (e : Caller) (turn : Turn) : Caller := { e with turn }

def withConversation (e : Caller) (conversation : Conversation) : Caller :=
  e.withTurn { e.turn with conversation }

/-- The keys of the channel once it is used. -/
def readyKeys (e : Caller) : Option ChannelKeys :=
  (e.pair.channel.filter Channel.ready).map Channel.keys

def send (K : KeyScheme) (e : Caller) : Caller where
  turn := e.turn.iterate K
  letters := e.letters ++ ((e.turn.packet? K).map fun packet => ⟨packet, e.readyKeys⟩).toList

def deliver (e : Caller) (l : Letter) (source : Address) : Caller :=
  e.withConversation (e.turn.conversation.deliver ⟨l.packet, source, false⟩)

/-- A datagram arrives that was sealed with some keys. -/
def relay (e : Caller) (l : Letter) (keys : ChannelKeys) (source : Address) : Caller :=
  match e.turn.addressed? (l.datagram keys) with
  | some (c, payload) => e.withTurn (e.turn.unlockDatagram c ⟨source, payload⟩).2
  | none => e

/-- The id under which the end receives what another end with the given channel key seals. -/
def inboundId? (K : KeyScheme) (e : Caller) (key : Bytes32) : Option ShortId :=
  match K.agree e.pair.channelSeed ⟨key⟩ with
  | .ok secret => some (ChannelKeys.derive secret (e.pair.own.key K).shortId
      e.pair.remote.key.shortId).inId
  | .error _ => none

def reroute (K : KeyScheme) (e : Caller) (key : Bytes32) (routes : RouteTable) : Caller :=
  match e.inboundId? K key with
  | some id =>
    if routes.get? id = e.turn.routes.get? id then e.withTurn { e.turn with routes } else e
  | none => e

end Caller

abbrev Contact := Side → Caller

namespace Contact

inductive Move
  /-- A packet of the other end arrives outside the channel, given by its place. -/
  | deliver (index : Nat) (source : Address)
  | relay (index : Nat) (source : Address)
  /-- The next message or packet is handled. -/
  | receive (now : Moment)
  | send
  | submit (m : Message)
  | refill
  | withdraw (id : Bytes32)
  | transmit
  | lock
  | list (l : AddressList)
  | drawFill
  /-- The routing table changes, but not for the inbound id of the channel. -/
  | reroute (routes : RouteTable)

def act (K : KeyScheme) (e o : Caller) : Move → Caller
  | .deliver index source =>
    match o.letters[index]? with
    | some l => if l.via = none then e.deliver l source else e
    | none => e
  | .relay index source =>
    match o.letters[index]? with
    | some l =>
      match l.via with
      | some keys => if l.Intact then e.relay l keys source else e
      | none => e
    | none => e
  | .receive now => e.withTurn (e.turn.receiveOne K now)
  | .send => e.send K
  | .submit m => if m.isApplication ∨ m = .nop then e.withTurn (e.turn.offer m) else e
  | .refill => e.withTurn e.turn.refill
  | .withdraw id =>
    let c := e.turn.conversation
    e.withConversation { c with outbox := c.outbox.withdraw id }
  | .transmit => e.withTurn e.turn.transmit
  | .lock => e.withTurn e.turn.lock
  | .list l => e.withTurn (e.turn.become (e.pair.updateList l) e.turn.routes)
  | .drawFill =>
    e.withConversation { e.turn.conversation with pair := e.pair.after K .drawFill }
  | .reroute routes => e.reroute K (o.pair.channelKey K) routes

def step (K : KeyScheme) (d : Contact) (m : Side × Move) : Contact :=
  Function.update d m.1 (act K (d m.1) (d m.1.other) m.2)

def run (K : KeyScheme) (d : Contact) (ms : List (Side × Move)) : Contact := ms.foldl (step K) d

def start (K : KeyScheme) (O : Side → Opening) : Contact := fun s =>
  { turn :=
      { conversation := .new (O s).node (O s).config ((O s).pair ((O s.other).own.key K))
        routes := (O s).routes }
    letters := [] }

end Contact

section
variable (K : KeyScheme) (secret : Bytes32) (o o' : Opening) (answered : Prop)

/-- What holds of the end `o` when it talks with the end `o'`. -/
structure Caller.Settled (e : Caller) : Prop where
  turn : e.turn.Settled K secret o o' answered
  packet : ∀ l ∈ e.letters, l.packet.Honest K o o' e.turn.Installed
  via : ∀ l ∈ e.letters, ∀ k, l.via = some k → k = o.keys K secret o' ∧ e.turn.Installed

/-- What a move has to come to. -/
structure Caller.Keeps (e e' : Caller) : Prop where
  settled : e'.Settled K secret o o' answered
  installed : e.turn.Installed → e'.turn.Installed

end

namespace Caller

variable {K : KeyScheme} {secret : Bytes32} {o o' : Opening} {answered : Prop} {e : Caller}

theorem Settled.mono (h : e.Settled K secret o o' answered) {answered' : Prop}
    (ha : answered → answered') : e.Settled K secret o o' answered' :=
  ⟨h.turn.mono ha, h.packet, h.via⟩

theorem Settled.keeps_self (h : e.Settled K secret o o' answered) :
    e.Keeps K secret o o' answered e :=
  ⟨h, id⟩

theorem Settled.keeps_withTurn (h : e.Settled K secret o o' answered) {t : Turn}
    (ht : e.turn.Keeps K secret o o' answered t) :
    e.Keeps K secret o o' answered (e.withTurn t) where
  settled := ⟨ht.settled, fun l hl => (h.packet l hl).mono ht.installed,
    fun l hl k hk => (h.via l hl k hk).imp_right ht.installed⟩
  installed := ht.installed

variable {e' : Caller}

theorem Settled.keeps_deliver (h : e.Settled K secret o o' answered) {l : Letter}
    (hl : l.packet.Honest K o' o answered) (source : Address) :
    e.Keeps K secret o o' answered (e.deliver l source) := by
  refine h.keeps_withTurn ?_
  simp only [Conversation.deliver]
  split_ifs
  · refine h.turn.keeps rfl rfl (fun _ => .inl) (fun _ => .inl) fun i hi => ?_
    refine (List.mem_append.1 hi).imp_right fun hnew => ?_
    rw [List.mem_singleton.1 hnew]
    exact hl
  · exact h.turn.keeps_self

/-- Where a datagram goes it opens to what the other end has sealed. -/
theorem Settled.keeps_relay (h : e.Settled K secret o o' answered) (ha : answered) {l : Letter}
    (hl : l.packet.Honest K o' o answered) (hintact : l.Intact) (source : Address) :
    e.Keeps K secret o o' answered (e.relay l (o'.keys K secret o) source) := by
  rw [relay]
  split
  · next c payload haddressed =>
    rw [Letter.datagram] at haddressed
    obtain ⟨hc, hpayload⟩ := Turn.addressed?_eq_some Vector.length_toList haddressed
    have hkeys : c.keys.decrypt = (o'.keys K secret o).encrypt := by
      rw [Opening.keys_swap K secret o o', ChannelKeys.encrypt_mirror,
        (h.turn.bond.channel c hc).keys_eq]
    refine h.keeps_withTurn (h.turn.keeps_unlockDatagram ha fun data packet hdata hpacket => ?_)
    simp only [hkeys, hpayload, Envelope.unlock_lock] at hdata
    have hdecode : Packet.decode l.packet.encode = .ok packet :=
      (congrArg Packet.decode (Except.ok.inj hdata)).trans hpacket
    exact hintact packet hdecode ▸ hl
  · exact h.keeps_self

theorem Settled.readyKeys_eq (h : e.Settled K secret o o' answered) {k : ChannelKeys}
    (hk : e.readyKeys = some k) : k = o.keys K secret o' ∧ e.turn.Installed := by
  obtain ⟨c, hc, rfl⟩ := Option.map_eq_some_iff.1 hk
  have hchannel : e.pair.channel = some c := (Option.filter_eq_some_iff.1 hc).1
  refine ⟨(h.turn.bond.channel c hchannel).keys_eq, ?_⟩
  exact congrArg Option.isSome hchannel

theorem Settled.keeps_send (h : e.Settled K secret o o' answered) :
    e.Keeps K secret o o' answered (e.send K) := by
  have hturn := h.turn.keeps_iterate
  refine ⟨⟨hturn.settled, fun l hl => ?_, fun l hl k hk => ?_⟩, hturn.installed⟩
  · obtain hold | hnew := List.mem_append.1 hl
    · exact (h.packet l hold).mono hturn.installed
    · obtain ⟨packet, hpacket, rfl⟩ := Option.map_eq_some_iff.1 (Option.mem_toList.1 hnew)
      exact (h.turn.honest_packet hpacket).mono hturn.installed
  · obtain hold | hnew := List.mem_append.1 hl
    · exact (h.via l hold k hk).imp_right hturn.installed
    · obtain ⟨packet, -, rfl⟩ := Option.map_eq_some_iff.1 (Option.mem_toList.1 hnew)
      exact (h.readyKeys_eq hk).imp_right hturn.installed

theorem Settled.keeps_reroute (h : e.Settled K secret o o' answered)
    (hagree : K.agree o.channelSeed ⟨o'.channelKey K⟩ = .ok secret) (routes : RouteTable) :
    e.Keeps K secret o o' answered (e.reroute K (o'.channelKey K) routes) := by
  have hseed : e.pair.channelSeed = o.channelSeed := h.turn.bond.channelSeed
  have hown : e.pair.own = o.own := h.turn.bond.own
  have hpeer : e.pair.remote.key = o'.own.key K := h.turn.bond.peer
  have hid : e.inboundId? K (o'.channelKey K) = some (o.keys K secret o').inId := by
    simp only [inboundId?, hseed, hagree, hown, hpeer, Opening.keys]
  simp only [reroute, hid]
  split_ifs with heq
  · exact h.keeps_withTurn ⟨{ h.turn with bond := h.turn.bond.reroute heq }, id⟩
  · exact h.keeps_self

theorem Settled.keeps_act (h : e.Settled K secret o o' e'.turn.Installed)
    (h' : e'.Settled K secret o' o e.turn.Installed)
    (hagree : K.agree o.channelSeed ⟨o'.channelKey K⟩ = .ok secret) (m : Contact.Move) :
    e.Keeps K secret o o' e'.turn.Installed (Contact.act K e e' m) := by
  cases m with
  | deliver index source =>
    simp only [Contact.act]
    split
    · next l hl =>
      split_ifs
      · exact h.keeps_deliver (h'.packet l (List.mem_of_getElem? hl)) source
      · exact h.keeps_self
    · exact h.keeps_self
  | relay index source =>
    simp only [Contact.act]
    split
    · next l hl =>
      have hmem := List.mem_of_getElem? hl
      split
      · next keys hvia =>
        obtain ⟨hkeys, ha⟩ := h'.via l hmem keys hvia
        split_ifs with hintact
        · rw [hkeys]
          exact h.keeps_relay ha (h'.packet l hmem) hintact source
        · exact h.keeps_self
      · exact h.keeps_self
    · exact h.keeps_self
  | receive now => exact h.keeps_withTurn (h.turn.keeps_receiveOne hagree now)
  | send => exact h.keeps_send
  | submit m =>
    simp only [Contact.act]
    split_ifs with hm
    · refine h.keeps_withTurn (h.turn.keeps_offer ?_)
      obtain happ | rfl := hm
      · exact Message.honest_of_isApplication happ
      · trivial
    · exact h.keeps_self
  | refill =>
    have hc := e.turn.conversation_refill
    refine h.keeps_withTurn (h.turn.keeps (by rw [hc]) e.turn.routes_refill (fun m hm => .inl ?_)
      (fun m hm => .inl (by rwa [hc] at hm)) fun i hi => .inl (by rwa [hc] at hi))
    rw [hc] at hm
    exact Outbox.mem_held_refill hm
  | withdraw id =>
    exact h.keeps_withTurn (h.turn.keeps rfl rfl (fun _ hm => .inl (Outbox.mem_held_withdraw hm))
      (fun _ => .inl) fun _ => .inl)
  | transmit => exact h.keeps_withTurn (h.turn.keeps_same rfl rfl rfl rfl rfl)
  | lock =>
    refine h.keeps_withTurn ?_
    simp only [Turn.lock]
    split
    · exact h.turn.keeps_same rfl rfl rfl rfl rfl
    · exact h.turn.keeps_same rfl rfl rfl rfl rfl
  | list l =>
    have hbond := e.pair.bond_updateList l
    refine h.keeps_withTurn (h.turn.keeps_become_same (congrArg Bond.channel hbond) ?_)
    rw [hbond]
    exact h.turn.bond
  | drawFill => exact h.keeps_withTurn (h.turn.keeps_same rfl rfl rfl rfl rfl)
  | reroute routes =>
    have hkey : e'.pair.channelKey K = o'.channelKey K := h'.turn.bond.channelKey_eq
    simp only [Contact.act, hkey]
    exact h.keeps_reroute hagree routes

end Caller

namespace Contact

variable {K : KeyScheme} {O : Side → Opening} {secret : Bytes32}

def Settled (K : KeyScheme) (O : Side → Opening) (secret : Bytes32) (d : Contact) : Prop :=
  ∀ s, (d s).Settled K secret (O s) (O s.other) (d s.other).turn.Installed

theorem Settled.step {d : Contact} (h : d.Settled K O secret)
    (hagree : ∀ s, K.agree (O s).channelSeed ⟨(O s.other).channelKey K⟩ = .ok secret)
    (m : Side × Move) : (d.step K m).Settled K O secret := by
  obtain ⟨s, m⟩ := m
  have hother := h s.other
  rw [Side.other_other] at hother
  have hkeeps := (h s).keeps_act hother (hagree s) m
  intro s'
  obtain rfl | rfl := s.eq_or_eq_other s'
  · rw [Contact.step, Function.update_self, Function.update_of_ne s'.other_ne]
    exact hkeeps.settled
  · rw [Contact.step, Side.other_other, Function.update_self, Function.update_of_ne s.other_ne]
    exact hother.mono hkeeps.installed

theorem settled_start
    (hfree : ∀ s, (O s).routes.get? ((O s).keys K secret (O s.other)).inId = none) :
    (start K O).Settled K O secret := by
  intro s
  refine ⟨⟨settled_pair (hfree s), ?_, ?_, ?_⟩, ?_, ?_⟩
  all_goals rintro _ ⟨⟩

theorem Settled.run {d : Contact} (h : d.Settled K O secret)
    (hagree : ∀ s, K.agree (O s).channelSeed ⟨(O s.other).channelKey K⟩ = .ok secret)
    (ms : List (Side × Move)) : (d.run K ms).Settled K O secret := by
  induction ms generalizing d with
  | nil => exact h
  | cons m ms ih => exact ih (h.step hagree m)

/-- If the two channel keys agree on a secret and the ids that it gives are free, an end has a ready
channel only when the other end has one with its key, the mirror image of its own, and what the one
seals finds its way to the other and opens there. -/
theorem ready_channels_agree (K : KeyScheme) (O : Side → Opening) {secret : Bytes32}
    (hagree : ∀ s, K.agree (O s).channelSeed ⟨(O s.other).channelKey K⟩ = .ok secret)
    (hfree : ∀ s, (O s).routes.get? ((O s).keys K secret (O s.other)).inId = none)
    (ms : List (Side × Move)) {d : Contact} (hd : (start K O).run K ms = d) {s : Side}
    {c : Channel} (hc : (d s).pair.channel = some c) (hready : c.ready) :
    ∃ c', (d s.other).pair.channel = some c' ∧ c'.remoteKey = (d s).pair.channelKey K ∧
      c'.keys = ⟨c.keys.decrypt, c.keys.encrypt⟩ ∧ c'.keys.inId = c.keys.outId ∧
      c'.keys.outId = c.keys.inId ∧
      ∀ target data, ∃ datagram payload,
        Turn.sealed c (target, data) = .datagram target datagram ∧
        (d s.other).turn.addressed? datagram = some (c', payload) ∧
        Envelope.unlock c'.keys.decrypt payload = .ok data := by
  have hsettled : d.Settled K O secret := hd ▸ (settled_start hfree).run hagree ms
  have h := hsettled s
  have hother := hsettled s.other
  rw [Side.other_other] at hother
  have hown := h.turn.bond.channel c hc
  obtain ⟨c', hc'⟩ := Option.isSome_iff_exists.1 (hown.answered hready)
  have hpeer := hother.turn.bond.channel c' hc'
  have hkeys : c'.keys = c.keys.mirror := by
    rw [hpeer.keys_eq, hown.keys_eq]
    exact Opening.keys_swap K secret (O s) (O s.other)
  have hkey : (d s).pair.channelKey K = (O s).channelKey K := h.turn.bond.channelKey_eq
  refine ⟨c', hc', hpeer.remoteKey_eq.trans hkey.symm, hkeys, ?_, ?_, fun target data => ?_⟩
  · rw [hkeys, ChannelKeys.inId_mirror]
  · rw [hkeys, ChannelKeys.outId_mirror]
  · have hentry : (d s.other).turn.routes.get? c.keys.outId = some ⟨.channel, c'.ticket⟩ := by
      rw [← ChannelKeys.inId_mirror, ← hkeys, hpeer.keys_eq]
      exact hpeer.entry
    refine ⟨_, Envelope.lock c.keys.encrypt data, rfl, Turn.addressed?_append hc' hentry _, ?_⟩
    rw [hkeys, ChannelKeys.decrypt_mirror, Envelope.unlock_lock]

/-- Agreement by exclusive or of the seed and the key, which are of the same kind. -/
def xorScheme : KeyScheme :=
  { KeyScheme.transparent with
    agree := fun seed key => .ok (seed.zipWith (· ^^^ ·) key.bytes) }

/-- An end with a key of its own and another one for the channel. -/
def caller (s : Side) : Opening where
  node := 0
  own := ⟨.replicate 32 (if s = .left then 1 else 2), 100, { reinitDate := 100 }⟩
  known := {}
  config := {}
  start := 100
  supply := { Supply.zeros with
    key := fun _ => .ofFn fun i => if s = .left then i.val.toUInt8 else 7 }
  routes := {}
  list_le := Int32.le_refl _

theorem agree_caller (s : Side) : xorScheme.agree (caller s).channelSeed
    ⟨(caller s.other).channelKey xorScheme⟩ = .ok (.ofFn fun i => i.val.toUInt8 ^^^ 7) := by
  refine congrArg Except.ok ?_
  cases s <;> decide +kernel

/-- The left end says something, and the right end confirms the key that comes along with it. -/
def greeting : Contact := (start xorScheme caller).run xorScheme
  [(.left, .submit (.custom [1])), (.left, .send), (.right, .deliver 0 ⟨.v4 0, 0⟩),
    (.right, .receive ⟨0, 100⟩), (.right, .receive ⟨0, 100⟩), (.right, .send),
    (.left, .deliver 0 ⟨.v4 0, 0⟩), (.left, .receive ⟨0, 100⟩), (.left, .receive ⟨0, 100⟩)]

theorem ready_channels_agree_greeting :
    ∃ c c', (greeting .left).pair.channel = some c ∧ c.ready ∧
      (greeting .right).pair.channel = some c' ∧ c'.keys = ⟨c.keys.decrypt, c.keys.encrypt⟩ := by
  have hrun : (greeting .left).pair.channel.any Channel.ready = true := by decide +kernel
  obtain ⟨c, hc, hready⟩ := (Option.any_eq_true _ _).1 hrun
  obtain ⟨c', hc', -, hkeys, -⟩ := ready_channels_agree xorScheme caller agree_caller
    (fun _ => rfl) _ (d := greeting) rfl hc hready
  exact ⟨c, c', hc, hready, hc', hkeys⟩

end Contact

end Adnl
