import Adnl.Host.Routing
import Adnl.Proofs.Agreement.Bond
import Adnl.Proofs.Sending.Order

/-! # What an end tells the other one

Outside of what the application says, an end tells nothing but its own channel key, and confirms the
other end's only while it has a channel. The other end takes in no more than that, so each turn of
either leaves what is known of the channel in order.
-/
namespace Adnl

/-- What an end may say whose channel key is `key` to one whose channel key is `peerKey`. -/
def Message.Honest (key peerKey : Bytes32) (installed : Prop) : Message → Prop
  | .createChannel k _ => k = key
  | .confirmChannel k k' _ => k = key ∧ k' = peerKey ∧ installed
  | .reinit _ => False
  | .part .. => False
  | _ => True

theorem Message.Honest.mono {key peerKey : Bytes32} {installed installed' : Prop} {m : Message}
    (h : m.Honest key peerKey installed) (hi : installed → installed') :
    m.Honest key peerKey installed' := by
  cases m with
  | confirmChannel => exact ⟨h.1, h.2.1, hi h.2.2⟩
  | _ => exact h

theorem Message.honest_of_isApplication {key peerKey : Bytes32} {installed : Prop} {m : Message}
    (h : m.isApplication) : m.Honest key peerKey installed := by
  cases m with
  | custom => trivial
  | query => trivial
  | answer => trivial
  | _ => cases h

/-- What has been put into an outbox and has not left. -/
def Outbox.held (o : Outbox) : List Message := o.waiting ++ o.parked

section
variable (K : KeyScheme) (secret : Bytes32) (o o' : Opening) (installed answered : Prop)

/-- A packet that the end `o` may build for the end `o'`. -/
structure Packet.Honest (packet : Packet) : Prop where
  dated : packet.Dated o
  messages : ∀ m ∈ packet.allMessages, m.Honest (o.channelKey K) (o'.channelKey K) installed

def Turn.Installed (t : Turn) : Prop := t.conversation.pair.channel.isSome

/-- What holds of the conversation of the end `o` with the end `o'`. -/
structure Turn.Settled (t : Turn) : Prop where
  bond : t.conversation.pair.bond.Settled K secret o o' answered t.routes
  outbox : ∀ m ∈ t.conversation.outbox.held,
    m.Honest (o.channelKey K) (o'.channelKey K) t.Installed
  work : ∀ m ∈ t.conversation.work, m.Honest (o'.channelKey K) (o.channelKey K) answered
  input : ∀ i ∈ t.conversation.input, i.packet.Honest K o' o answered

/-- What a turn has to come to. -/
structure Turn.Keeps (t t' : Turn) : Prop where
  settled : t'.Settled K secret o o' answered
  installed : t.Installed → t'.Installed

end

theorem Packet.Honest.mono {K : KeyScheme} {o o' : Opening} {installed installed' : Prop}
    {packet : Packet} (h : packet.Honest K o o' installed) (hi : installed → installed') :
    packet.Honest K o o' installed' :=
  ⟨h.dated, fun m hm => (h.messages m hm).mono hi⟩

namespace Pair

variable {K : KeyScheme} {secret : Bytes32} {o o' : Opening} {answered : Prop} {p : Pair}
  {routes : RouteTable}

theorem honest_handshakeMessage (h : p.bond.Settled K secret o o' answered routes)
    (first : Message) : ∀ m ∈ p.handshakeMessage K first,
      m.Honest (o.channelKey K) (o'.channelKey K) (p.channel.isSome) := by
  intro m hm
  rw [handshakeMessage] at hm
  cases hc : p.channel with
  | none =>
    simp only [hc, List.mem_singleton] at hm
    rw [hm]
    exact h.channelKey_eq
  | some c =>
    simp only [hc] at hm
    split_ifs at hm
    · cases hm
    · rw [List.mem_singleton.1 hm]
      exact ⟨h.channelKey_eq, (h.channel c hc).remoteKey_eq, rfl⟩

theorem dated_build (hown : p.own = o.own) (ms : List Message) : (p.build K ms).1.Dated o := by
  obtain ⟨_, _, _, _, _, address, haddress, hbuild⟩ := build_eq K p ms
  rw [hbuild, hown]
  by_cases hready : p.channelReady
  · simp only [hready, if_true]
    exact ⟨⟨_, rfl⟩, by rintro _ ⟨⟩⟩
  · simp only [hready, Bool.false_eq_true, if_false]
    refine ⟨⟨_, rfl⟩, fun l hl => ?_⟩
    change address = some l at hl
    rcases haddress with rfl | rfl
    · cases hl
    · cases hl
      exact hown ▸ o.list_le

end Pair

namespace Outbox

variable {o : Outbox} {m : Message}

theorem mem_held_offer {m' : Message} (h : m' ∈ (o.offer m).held) : m' ∈ o.held ∨ m' = m := by
  rw [offer, held, waiting] at h
  rw [held, waiting]
  split_ifs at h <;> simp only [List.mem_append, List.mem_singleton] at h ⊢ <;> tauto

theorem mem_held_refill (h : m ∈ o.refill.held) : m ∈ o.held := by
  have hparked : o.refill.held = o.held := by
    simp [held, waiting, refill]
  rwa [hparked] at h

theorem mem_held_withdraw {id : Bytes32} (h : m ∈ (o.withdraw id).held) : m ∈ o.held := by
  obtain hwaiting | hparked := List.mem_append.1 h
  · exact List.mem_append_left _ hwaiting
  · exact List.mem_append_right _ (List.mem_of_mem_filter hparked)

theorem mem_held_of_first? {first : Message} {o' : Outbox} (h : o.first? = some (first, o')) :
    first ∈ o.held ∧ (∀ m ∈ o'.queue, m ∈ o.held) ∧ ∀ m ∈ o'.parked, m ∈ o.held := by
  obtain ⟨hwaiting, hparked⟩ := waiting_of_first? h
  rw [held, hwaiting, hparked]
  exact ⟨List.mem_append_left _ List.mem_cons_self,
    fun m hm => List.mem_append_left _ (List.mem_cons_of_mem _ hm),
    fun m hm => List.mem_append_right _ hm⟩

theorem mem_held_pack {K : KeyScheme} {p : Pair} {first : Message}
    (h : m ∈ (o.pack K p first).2.2.held) : m ∈ o.queue ∨ m ∈ o.parked := by
  rw [held, parked_pack] at h
  exact (List.mem_append.1 h).imp_left (o.waiting_pack_suffix K p first).mem

theorem dated_pack {K : KeyScheme} {p : Pair} {first : Message} {packet : Packet} {e : Opening}
    (hown : p.own = e.own) (h : (o.pack K p first).1 = some packet) : packet.Dated e := by
  have hcollect : (p.collect K first o.queue).2.own = e.own := by
    rw [Pair.snd_collect, ← hown]
  simp only [pack] at h
  split_ifs at h
  exact Option.some.inj h ▸ Pair.dated_build hcollect _

end Outbox

theorem Channel.closeReplaced_self (c : Option Channel) (routes : RouteTable) :
    closeReplaced c c routes = routes := by
  cases c with
  | none => rfl
  | some c => exact if_pos rfl

theorem Pair.closeReplaced_markReady (p : Pair) (routes : RouteTable) :
    Channel.closeReplaced p.channel p.markReady.channel routes = routes := by
  cases hc : p.channel with
  | none => rfl
  | some c => simp [Channel.closeReplaced, markReady, hc]

namespace Turn

variable {K : KeyScheme} {secret : Bytes32} {o o' : Opening} {answered : Prop} {t t' : Turn}

theorem Settled.mono (h : t.Settled K secret o o' answered) {answered' : Prop}
    (ha : answered → answered') : t.Settled K secret o o' answered' where
  bond := h.bond.mono ha
  outbox := h.outbox
  work m hm := (h.work m hm).mono ha
  input i hi := (h.input i hi).mono ha

theorem Settled.keeps_self (h : t.Settled K secret o o' answered) :
    t.Keeps K secret o o' answered t :=
  ⟨h, id⟩

theorem Keeps.trans {t'' : Turn} (h : t.Keeps K secret o o' answered t')
    (h' : t'.Keeps K secret o o' answered t'') : t.Keeps K secret o o' answered t'' :=
  ⟨h'.settled, fun hi => h'.installed (h.installed hi)⟩

theorem Settled.keeps (h : t.Settled K secret o o' answered)
    (hbond : t'.conversation.pair.bond = t.conversation.pair.bond) (hroutes : t'.routes = t.routes)
    (houtbox : ∀ m ∈ t'.conversation.outbox.held, m ∈ t.conversation.outbox.held ∨
      m.Honest (o.channelKey K) (o'.channelKey K) t.Installed)
    (hwork : ∀ m ∈ t'.conversation.work,
      m ∈ t.conversation.work ∨ m.Honest (o'.channelKey K) (o.channelKey K) answered)
    (hinput : ∀ i ∈ t'.conversation.input,
      i ∈ t.conversation.input ∨ i.packet.Honest K o' o answered) :
    t.Keeps K secret o o' answered t' := by
  have hchannel : t'.conversation.pair.channel = t.conversation.pair.channel :=
    congrArg Bond.channel hbond
  have hinstalled : t.Installed → t'.Installed := by
    rw [Installed, Installed, hchannel]
    exact id
  refine ⟨⟨?_, fun m hm => ?_, fun m hm => ?_, fun i hi => ?_⟩, hinstalled⟩
  · rw [hbond, hroutes]
    exact h.bond
  · exact ((houtbox m hm).elim (h.outbox m) id).mono hinstalled
  · exact (hwork m hm).elim (h.work m) id
  · exact (hinput i hi).elim (h.input i) id

theorem Settled.keeps_same (h : t.Settled K secret o o' answered)
    (hbond : t'.conversation.pair.bond = t.conversation.pair.bond) (hroutes : t'.routes = t.routes)
    (houtbox : t'.conversation.outbox = t.conversation.outbox)
    (hwork : t'.conversation.work = t.conversation.work)
    (hinput : t'.conversation.input = t.conversation.input) :
    t.Keeps K secret o o' answered t' :=
  h.keeps hbond hroutes (fun _ hm => .inl (houtbox ▸ hm)) (fun _ hm => .inl (hwork ▸ hm))
    fun _ hi => .inl (hinput ▸ hi)

theorem Settled.keeps_become (h : t.Settled K secret o o' answered) {p : Pair}
    {routes : RouteTable} (hbond : p.bond.Settled K secret o o' answered
      (Channel.closeReplaced t.conversation.pair.channel p.channel routes))
    (hinstalled : t.Installed → p.channel.isSome) :
    t.Keeps K secret o o' answered (t.become p routes) := by
  obtain ⟨inbox, sealing, hc⟩ := t.conversation_become p routes
  have hstays : t.Installed → (t.become p routes).Installed := by
    rw [Installed, Installed, hc]
    exact hinstalled
  refine ⟨⟨?_, fun m hm => ?_, ?_, ?_⟩, hstays⟩
  · rw [t.routes_become, hc]
    exact hbond
  · rw [hc] at hm
    exact (h.outbox m hm).mono hstays
  · rw [hc]
    exact h.work
  · rw [hc]
    exact h.input

theorem Settled.keeps_become_same (h : t.Settled K secret o o' answered) {p : Pair}
    (hchannel : p.channel = t.conversation.pair.channel)
    (hbond : p.bond.Settled K secret o o' answered t.routes) :
    t.Keeps K secret o o' answered (t.become p t.routes) := by
  refine h.keeps_become ?_ fun hi => ?_
  · rwa [hchannel, Channel.closeReplaced_self]
  · rwa [hchannel]

theorem Settled.keeps_offer (h : t.Settled K secret o o' answered) {m : Message}
    (hm : m.Honest (o.channelKey K) (o'.channelKey K) t.Installed) :
    t.Keeps K secret o o' answered (t.offer m) := by
  have hc := t.conversation_offer m
  refine h.keeps (by rw [hc]) (t.routes_offer m) (fun m' hm' => ?_) (fun m' hm' => ?_)
    fun i hi => ?_
  · rw [hc] at hm'
    exact (Outbox.mem_held_offer hm').imp_right fun heq : m' = m => heq ▸ hm
  · rw [hc] at hm'
    exact .inl hm'
  · rw [hc] at hi
    exact .inl hi

theorem Settled.keeps_install (h : t.Settled K secret o o' answered)
    (hagree : K.agree o.channelSeed ⟨o'.channelKey K⟩ = .ok secret) (date : Int32) (ready : Bool)
    (hready : ready → answered) :
    ∃ p routes, t.conversation.pair.install K t.routes (o'.channelKey K) date ready =
        (.ok (), p, routes) ∧ p.channelKey K = o.channelKey K ∧
      p.channelReady = (t.conversation.pair.channelReady || ready) ∧
      t.Keeps K secret o o' answered (t.become p routes) ∧ (t.become p routes).Installed := by
  obtain ⟨c, routes, hinstall, hnow, hclose, hsettled⟩ := h.bond.install hagree date ready hready
  obtain ⟨inbox, sealing, hc⟩ :=
    t.conversation_become { t.conversation.pair with channel := some c } routes
  refine ⟨_, routes, hinstall, h.bond.channelKey_eq, hnow, h.keeps_become ?_ fun _ => rfl, ?_⟩
  · rw [hclose]
    exact h.bond.withChannel hsettled
  · rw [Installed, hc]
    rfl

theorem handle_createChannel {key : Bytes32} {date : Int32} {p : Pair} {routes : RouteTable}
    (h : t.conversation.pair.install K t.routes key date false = (.ok (), p, routes))
    (now : Moment) : t.handle K now (.createChannel key date) =
      ((t.become p routes).enqueue (.confirmChannel (p.channelKey K) key p.channelDate)).2 := by
  simp only [handle, Pair.onCreateChannel, h]

theorem handle_confirmChannel {key peerKey : Bytes32} {date : Int32} {p : Pair}
    {routes : RouteTable} (hkey : peerKey = t.conversation.pair.channelKey K)
    (h : t.conversation.pair.install K t.routes key date true = (.ok (), p, routes))
    (now : Moment) : t.handle K now (.confirmChannel key peerKey date) = t.become p routes := by
  simp only [handle, Pair.onConfirmChannel, hkey, if_true, h]

theorem Settled.keeps_handle (h : t.Settled K secret o o' answered)
    (hagree : K.agree o.channelSeed ⟨o'.channelKey K⟩ = .ok secret) (now : Moment) {m : Message}
    (hm : m.Honest (o'.channelKey K) (o.channelKey K) answered) :
    t.Keeps K secret o o' answered (t.handle K now m) := by
  cases m with
  | createChannel key date =>
    obtain rfl : key = o'.channelKey K := hm
    obtain ⟨p, routes, hinstall, hkey, -, hkeeps, hinstalled⟩ :=
      h.keeps_install hagree date false (by rintro ⟨⟩)
    have hconfirm : (Message.confirmChannel (p.channelKey K) (o'.channelKey K) p.channelDate).Honest
        (o.channelKey K) (o'.channelKey K) (t.become p routes).Installed :=
      ⟨hkey, rfl, hinstalled⟩
    rw [handle_createChannel hinstall, enqueue]
    split_ifs
    · exact hkeeps
    · exact hkeeps.trans (hkeeps.settled.keeps_offer hconfirm)
  | confirmChannel key peerKey date =>
    obtain ⟨rfl, rfl, ha⟩ : key = o'.channelKey K ∧ peerKey = o.channelKey K ∧ answered := hm
    obtain ⟨p, routes, hinstall, -, -, hkeeps, -⟩ :=
      h.keeps_install hagree date true fun _ => ha
    -- The own key has not changed since it was announced, so the confirmation is not a foreign one.
    rw [handle_confirmChannel h.bond.channelKey_eq.symm hinstall]
    exact hkeeps
  -- Nobody sends these two.
  | reinit => cases hm
  | part => cases hm
  | custom => exact h.keeps_same rfl rfl rfl rfl rfl
  | nop => exact h.keeps_self
  | query => exact h.keeps_same rfl rfl rfl rfl rfl
  | answer id data =>
    rw [handle, handleAnswer]
    split
    · exact h.keeps_same rfl rfl rfl rfl rfl
    · exact h.keeps_self

/-- One iteration of the receiving side: it handles a message, or takes in the next packet. -/
def receiveOne (K : KeyScheme) (now : Moment) (t : Turn) : Turn :=
  if t.conversation.isDeaf || t.conversation.outbox.receiverWaits then t
  else
    match t.conversation.work with
    | m :: rest => (t.setWork rest).handle K now m
    | [] =>
      match t.conversation.input with
      | [] => t
      | i :: rest =>
        ({ t with conversation := { t.conversation with input := rest } } : Turn).takePacket K now i

theorem Settled.keeps_takePacket (h : t.Settled K secret o o' answered) (now : Moment)
    {i : Incoming} (hi : i.packet.Honest K o' o answered) :
    t.Keeps K secret o o' answered (t.takePacket K now i) := by
  obtain ⟨hbond, hchannel⟩ :=
    h.bond.checkPacket hi.dated i.source i.viaChannel now.date
  have hbecome := h.keeps_become_same hchannel hbond
  rw [takePacket]
  split
  · next heq =>
    rw [heq] at hbecome
    exact hbecome
  · next heq =>
    rw [heq] at hbecome
    refine hbecome.trans (hbecome.settled.keeps rfl rfl (fun _ => .inl) (fun m hm => .inr ?_)
      fun _ => .inl)
    exact hi.messages m hm

theorem Settled.keeps_receiveOne (h : t.Settled K secret o o' answered)
    (hagree : K.agree o.channelSeed ⟨o'.channelKey K⟩ = .ok secret) (now : Moment) :
    t.Keeps K secret o o' answered (t.receiveOne K now) := by
  rw [receiveOne]
  split_ifs
  · exact h.keeps_self
  · cases hwork : t.conversation.work with
    | cons m rest =>
      have hset : t.Keeps K secret o o' answered (t.setWork rest) :=
        h.keeps rfl rfl (fun _ => .inl)
          (fun m' hm' => .inl (hwork ▸ List.mem_cons_of_mem m hm')) fun _ => .inl
      have hm := h.work m (hwork ▸ List.mem_cons_self)
      exact hset.trans (hset.settled.keeps_handle hagree now hm)
    | nil =>
      cases hinput : t.conversation.input with
      | nil => exact h.keeps_self
      | cons i rest =>
        have hset : t.Keeps K secret o o' answered
            { t with conversation := { t.conversation with input := rest } } :=
          h.keeps rfl rfl (fun _ => .inl) (fun _ => .inl)
            fun i' hi' => .inl (hinput ▸ List.mem_cons_of_mem i hi')
        have hi := h.input i (hinput ▸ List.mem_cons_self)
        exact hset.trans (hset.settled.keeps_takePacket now hi)

/-- The packet of the next iteration says nothing else than what may be said. -/
theorem Settled.honest_packet (h : t.Settled K secret o o' answered) {packet : Packet}
    (hp : t.packet? K = some packet) : packet.Honest K o o' t.Installed := by
  obtain ⟨⟨first, ob⟩, hfirst, hpack⟩ := Option.bind_eq_some_iff.1 hp
  obtain ⟨hhead, hqueue, -⟩ := Outbox.mem_held_of_first? hfirst
  refine ⟨Outbox.dated_pack h.bond.own hpack, fun m hm => ?_⟩
  have hmessages := (ob.pack_eq K t.conversation.pair first).1
  dsimp only at hpack
  rw [hpack, Option.elim_some] at hmessages
  rw [hmessages] at hm
  obtain hhandshake | rfl | hrest := Pair.mem_collect hm
  · exact Pair.honest_handshakeMessage h.bond first m hhandshake
  · exact h.outbox m hhead
  · exact h.outbox m (hqueue m hrest)

theorem Settled.keeps_iterate (h : t.Settled K secret o o' answered) :
    t.Keeps K secret o o' answered (t.iterate K) := by
  rw [iterate]
  split
  · exact h.keeps_self
  · next first ob hfirst =>
    obtain ⟨-, hqueue, hparked⟩ := Outbox.mem_held_of_first? hfirst
    obtain ⟨createSent, sent, supply, departing, sealing, hc⟩ :=
      t.conversation_sendFrom K first ob
    refine h.keeps (by rw [hc]; rfl) (t.routes_sendFrom K first ob) (fun m hm => .inl ?_)
      (fun m hm => .inl ?_) fun i hi => .inl ?_
    · rw [hc] at hm
      exact (Outbox.mem_held_pack hm).elim (hqueue m) (hparked m)
    · rwa [hc] at hm
    · rwa [hc] at hi

/-- The channel that a datagram is for, by the id in front, and the rest of the datagram. -/
def addressed? (t : Turn) (datagram : Bytes) : Option (Channel × Bytes) := do
  let id ← Bytes.toVector? 32 (datagram.take 32)
  let registration ← t.routes.get? ⟨id⟩
  let c ← t.conversation.pair.channel
  if registration = ⟨.channel, c.ticket⟩ then some (c, datagram.drop 32) else none

theorem exists_of_addressed? {datagram payload : Bytes} {c : Channel}
    (h : t.addressed? datagram = some (c, payload)) :
    t.conversation.pair.channel = some c ∧ ∃ id : ShortId,
      datagram = id.bytes.toList ++ payload ∧
        t.routes.get? id = some ⟨.channel, c.ticket⟩ := by
  simp only [addressed?, Option.bind_eq_bind, Option.bind_eq_some_iff] at h
  obtain ⟨id, hid, registration, hentry, c', hc, hsome⟩ := h
  split_ifs at hsome with hregistration
  obtain ⟨rfl, rfl⟩ := Prod.mk.inj (Option.some.inj hsome)
  refine ⟨hc, ⟨id⟩, ?_, hregistration ▸ hentry⟩
  rw [Bytes.toList_of_toVector? hid, List.take_append_drop]

theorem addressed?_eq_some {c : Channel} {id payload rest : Bytes} (hid : id.length = 32)
    (h : t.addressed? (id ++ rest) = some (c, payload)) :
    t.conversation.pair.channel = some c ∧ payload = rest := by
  obtain ⟨hc, id', hdatagram, -⟩ := exists_of_addressed? h
  have hlength : id.length = id'.bytes.toList.length := by rw [hid, Vector.length_toList]
  exact ⟨hc, (List.append_inj_right hdatagram hlength).symm⟩

theorem addressed?_append {c : Channel} (hc : t.conversation.pair.channel = some c)
    {id : ShortId} (hentry : t.routes.get? id = some ⟨.channel, c.ticket⟩) (payload : Bytes) :
    t.addressed? (id.bytes.toList ++ payload) = some (c, payload) := by
  have htake : (id.bytes.toList ++ payload).take 32 = id.bytes.toList := by simp
  have hdrop : (id.bytes.toList ++ payload).drop 32 = payload := by simp
  simp [addressed?, htake, hdrop, Bytes.toVector?_toList, hentry, hc]

/-- A host with this routing table and this conversation puts the datagram into the inbox of the
channel. -/
theorem sort_of_addressed? {h : Host} {i : Nat} {v : Conversation} {d : Datagram} {c : Channel}
    {payload : Bytes} (hv : h.conversations[i]? = some v)
    (hfirst : ∀ j < i, ∀ v', h.conversations[j]? = some v' → v'.ticket? ≠ v.ticket?)
    (hlisteners : ∀ l ∈ h.listeners, l.ticket ≠ c.ticket)
    (hlength : d.payload.length ≤ Host.maxDatagramLength)
    (haddressed : ({ conversation := v, routes := h.routes } : Turn).addressed? d.payload =
      some (c, payload)) :
    h.sort d = ({ h with conversations := h.conversations.modify i fun v =>
      { v with inbox := v.inbox.push { d with payload } } } : Host).wake (.converse i .unlock) := by
  simp only [addressed?, Option.bind_eq_bind, Option.bind_eq_some_iff] at haddressed
  obtain ⟨id, hid, registration, hentry, c', hc, hsome⟩ := haddressed
  split_ifs at hsome with hregistration
  obtain ⟨rfl, rfl⟩ := Prod.mk.inj (Option.some.inj hsome)
  have hticket : v.ticket? = some c'.ticket := congrArg (Option.map Channel.ticket) hc
  have hfind : h.conversations.findIdx? (fun v => v.ticket? = some c'.ticket) = some i := by
    obtain ⟨hi, hget⟩ := List.getElem?_eq_some_iff.1 hv
    refine List.findIdx?_eq_some_iff_getElem.2 ⟨hi, by simp [hget, hticket], fun j hj => ?_⟩
    have hother := hfirst j hj _ (List.getElem?_eq_getElem (hj.trans hi))
    simpa [hticket] using hother
  have hnone : h.listeners.any (fun l => l.ticket = c'.ticket) = false := by
    simpa using hlisteners
  simp only [Host.sort, List.take_of_length_le hlength, Host.idLength, hid, hentry, hregistration,
    Host.queueFor, hnone, Host.queueForChannel, hfind]
  rfl

theorem conversation_pass (t : Turn) (i : Incoming) : (t.pass i).conversation =
    { t.conversation with input := t.conversation.input ++ [i] } := by
  simp only [pass]
  split_ifs <;> rfl

theorem Settled.keeps_pass (h : t.Settled K secret o o' answered) {i : Incoming}
    (hi : i.packet.Honest K o' o answered) : t.Keeps K secret o o' answered (t.pass i) := by
  have hc := t.conversation_pass i
  have hroutes : (t.pass i).routes = t.routes := by
    simp only [pass]
    split_ifs <;> rfl
  refine h.keeps (by rw [hc]) hroutes (fun m hm => .inl (by rwa [hc] at hm))
    (fun m hm => .inl (by rwa [hc] at hm)) fun i' hi' => ?_
  rw [hc] at hi'
  refine (List.mem_append.1 hi').imp_right fun hnew => ?_
  rw [List.mem_singleton.1 hnew]
  exact hi

/-- A datagram that opens shows that the other end has a channel; what it holds is handed over. -/
theorem Settled.keeps_unlockDatagram (h : t.Settled K secret o o' answered) (ha : answered)
    {c : Channel} {d : Datagram} (hd : ∀ data packet, Envelope.unlock c.keys.decrypt d.payload =
      .ok data → Packet.decode data = .ok packet → packet.Honest K o' o answered) :
    t.Keeps K secret o o' answered (t.unlockDatagram c d).2 := by
  have hready : t.Keeps K secret o o' answered
      (t.become t.conversation.pair.markReady t.routes) := by
    refine h.keeps_become ?_ fun hi => ?_
    · rw [Pair.closeReplaced_markReady]
      exact h.bond.markReady ha
    · rw [Pair.markReady, Option.isSome_map]
      exact hi
  rw [unlockDatagram]
  split
  · exact h.keeps_self
  · next data hdata =>
    dsimp only
    split
    · exact hready
    · exact hready
    · next packet hpacket =>
      split_ifs
      · exact hready
      · refine hready.trans (hready.settled.keeps_pass ?_)
        exact hd data packet hdata hpacket

end Turn

end Adnl
