import Adnl.Proofs.Agreement.Contact

/-! # Every packet that is taken in brings the handshake forward

A packet announces the own channel key, or confirms the other end's, or goes through a channel that
is ready. Once the other end has taken it in and handled its messages it has a channel too, and that
one is ready if the sender had one.
-/
namespace Adnl

/-- What a packet tells the other end, by the channel that the sender had. -/
inductive Packet.Announces (packet : Packet) : Option Channel → Prop
  | created {key : Bytes32} {date : Int32}
    (h : Message.createChannel key date ∈ packet.allMessages) : Announces packet none
  | confirmed {c : Channel} {key peerKey : Bytes32} {date : Int32}
    (h : Message.confirmChannel key peerKey date ∈ packet.allMessages) :
    Announces packet (some c)
  /-- Only the channel vouches for the packet. -/
  | used {c : Channel} (h : packet.signature = none) : Announces packet (some c)

namespace Pair

variable {K : KeyScheme} {p : Pair} {first : Message}

/-- No handshake message stands beside a confirmation, so there is room for it. -/
theorem fits_of_isConfirmation
    (hmtu : plainHeaderSize p.own.addresses + Config.confirmationLength ≤ p.mtu)
    (hfirst : isConfirmation first) (hinstalled : p.channel.isSome) : p.Fits K first := by
  obtain ⟨c, hc⟩ := Option.isSome_iff_exists.1 hinstalled
  have hnone : p.handshakeMessage K first = [] := by
    simp [handshakeMessage, hc, hfirst]
  have hlength : first.encodedLength = Config.confirmationLength := by
    cases first with
    | confirmChannel => rfl
    | _ => cases hfirst
  have hheader := p.headerSize_le
  rw [Fits, baseSize, hnone, hlength]
  exact (Nat.add_le_add_right hheader _).trans hmtu

theorem mem_collect_of_mem_handshakeMessage {m : Message} (h : m ∈ p.handshakeMessage K first)
    (queue : List Message) : m ∈ (p.collect K first queue).1.messages := by
  by_cases hfits : p.Fits K first
  · rw [fst_collect_of_fits hfits]
    exact List.mem_append_left _ h
  · rw [fst_collect_of_not_fits hfits]
    exact List.mem_append_left _ h

theorem mem_collect_of_fits (h : p.Fits K first) (queue : List Message) :
    first ∈ (p.collect K first queue).1.messages := by
  rw [fst_collect_of_fits h]
  exact List.mem_append_right _ List.mem_cons_self

end Pair

theorem Pair.signature_build_of_ready {K : KeyScheme} {p : Pair} (h : p.channelReady)
    (ms : List Message) : (p.build K ms).1.signature = none := by
  rw [fst_build, if_pos h, Packet.signature_setMessages]
  rfl

namespace Outbox

theorem announces_pack {K : KeyScheme} {p : Pair} {o : Outbox} {first : Message} {packet : Packet}
    (hmtu : plainHeaderSize p.own.addresses + Config.confirmationLength ≤ p.mtu)
    (h : (o.pack K p first).1 = some packet) : packet.Announces p.channel := by
  have hmessages := (o.pack_eq K p first).1
  rw [h, Option.elim_some] at hmessages
  cases hc : p.channel with
  | none =>
    have hhead : .createChannel (p.channelKey K) p.channelDate ∈ p.handshakeMessage K first := by
      simp [Pair.handshakeMessage, hc]
    exact .created (hmessages ▸ Pair.mem_collect_of_mem_handshakeMessage hhead o.queue)
  | some c =>
    by_cases hready : c.ready
    · have hcollect : (p.collect K first o.queue).2.channelReady := by
        simp [Pair.snd_collect, Pair.channelReady, hc, hready]
      simp only [pack] at h
      split_ifs at h
      exact .used (Option.some.inj h ▸ Pair.signature_build_of_ready hcollect _)
    · cases hfirst : Pair.isConfirmation first with
      | true =>
        have hfits : p.Fits K first := Pair.fits_of_isConfirmation hmtu hfirst (hc ▸ rfl)
        cases first with
        | confirmChannel => exact .confirmed (hmessages ▸ Pair.mem_collect_of_fits hfits o.queue)
        | _ => cases hfirst
      | false =>
        have hhead : .confirmChannel (p.channelKey K) c.remoteKey p.channelDate ∈
            p.handshakeMessage K first := by
          simp [Pair.handshakeMessage, hc, hready, hfirst]
        exact .confirmed (hmessages ▸ Pair.mem_collect_of_mem_handshakeMessage hhead o.queue)

end Outbox

/-! ## What a turn brings forward -/

/-- What has come of a message once it has been handled. -/
def Message.Done (t : Turn) : Message → Prop
  | .createChannel .. => t.Installed
  | .confirmChannel .. => t.conversation.pair.channelReady
  | _ => True

/-- The handshake never goes back, no message is lost before it is handled, and a packet has come
through the channel only if that is ready. -/
structure Turn.Onward (t t' : Turn) : Prop where
  mtu_eq : t'.conversation.pair.mtu = t.conversation.pair.mtu
  installed : t.Installed → t'.Installed
  ready : t.conversation.pair.channelReady → t'.conversation.pair.channelReady
  work : ∀ m ∈ t.conversation.work, m ∈ t'.conversation.work ∨ m.Done t'
  input : ∀ i ∈ t'.conversation.input, i.viaChannel →
    i ∈ t.conversation.input ∨ t'.conversation.pair.channelReady

namespace Turn

variable {K : KeyScheme} {secret : Bytes32} {o o' : Opening} {answered : Prop} {t t' t'' : Turn}

theorem Onward.refl (t : Turn) : t.Onward t where
  mtu_eq := rfl
  installed := id
  ready := id
  work _ := .inl
  input _ hi _ := .inl hi

theorem Onward.done (h : t.Onward t') {m : Message} (hm : m.Done t) : m.Done t' := by
  cases m with
  | createChannel => exact h.installed hm
  | confirmChannel => exact h.ready hm
  | _ => trivial

theorem Onward.trans (h : t.Onward t') (h' : t'.Onward t'') : t.Onward t'' where
  mtu_eq := h'.mtu_eq.trans h.mtu_eq
  installed hi := h'.installed (h.installed hi)
  ready hr := h'.ready (h.ready hr)
  work m hm := (h.work m hm).elim (h'.work m) fun hdone => .inr (h'.done hdone)
  input i hi hvia := by
    obtain hmid | hready := h'.input i hi hvia
    · exact (h.input i hmid hvia).imp_right h'.ready
    · exact .inr hready

theorem onward_of_channel_eq
    (hmtu : t'.conversation.pair.mtu = t.conversation.pair.mtu)
    (hchannel : t'.conversation.pair.channel = t.conversation.pair.channel)
    (hwork : t.conversation.work ⊆ t'.conversation.work)
    (hinput : ∀ i ∈ t'.conversation.input, i.viaChannel → i ∈ t.conversation.input) :
    t.Onward t' where
  mtu_eq := hmtu
  installed := by
    rw [Installed, Installed, hchannel]
    exact id
  ready := by
    rw [Pair.channelReady, Pair.channelReady, hchannel]
    exact id
  work _ hm := .inl (hwork hm)
  input i hi hvia := .inl (hinput i hi hvia)

theorem onward_of_eq (hpair : t'.conversation.pair = t.conversation.pair)
    (hwork : t'.conversation.work = t.conversation.work)
    (hinput : t'.conversation.input = t.conversation.input) : t.Onward t' :=
  onward_of_channel_eq (hpair ▸ rfl) (hpair ▸ rfl) (hwork ▸ List.Subset.refl _)
    fun _ hi _ => hinput ▸ hi

theorem onward_offer (t : Turn) (m : Message) : t.Onward (t.offer m) := by
  have hc := t.conversation_offer m
  apply onward_of_eq <;> rw [hc]

theorem onward_become (t : Turn) {p : Pair} (routes : RouteTable)
    (hmtu : p.mtu = t.conversation.pair.mtu) (hinstalled : t.Installed → p.channel.isSome)
    (hready : t.conversation.pair.channelReady → p.channelReady) :
    t.Onward (t.become p routes) := by
  obtain ⟨inbox, sealing, hc⟩ := t.conversation_become p routes
  refine ⟨?_, ?_, ?_, ?_, ?_⟩
  · rw [hc]
    exact hmtu
  · rw [Installed, Installed, hc]
    exact hinstalled
  · rw [hc]
    exact hready
  · rw [hc]
    exact fun _ => .inl
  · rw [hc]
    exact fun _ hi _ => .inl hi

theorem Settled.onward_install (h : t.Settled K secret o o' answered)
    (hagree : K.agree o.channelSeed ⟨o'.channelKey K⟩ = .ok secret) (date : Int32) (ready : Bool)
    (hanswered : ready → answered) :
    ∃ p routes, t.conversation.pair.install K t.routes (o'.channelKey K) date ready =
        (.ok (), p, routes) ∧ t.Onward (t.become p routes) ∧ (t.become p routes).Installed ∧
      (ready → (t.become p routes).conversation.pair.channelReady) := by
  obtain ⟨p, routes, hinstall, -, hnow, -, hinstalled⟩ :=
    h.keeps_install hagree date ready hanswered
  obtain ⟨inbox, sealing, hc⟩ := t.conversation_become p routes
  obtain ⟨channel, rfl⟩ : ∃ channel, p = { t.conversation.pair with channel } := by
    have hp := t.conversation.pair.snd_install K t.routes (o'.channelKey K) date ready
    rwa [hinstall] at hp
  have hchannel : channel.isSome := by
    rw [Installed, hc] at hinstalled
    exact hinstalled
  refine ⟨_, routes, hinstall, t.onward_become routes rfl (fun _ => hchannel) ?_, hinstalled, ?_⟩
  · intro hready
    rw [hnow, hready, Bool.true_or]
  · intro hready
    rw [hc, hnow, hready, Bool.or_true]

theorem Settled.onward_handle (h : t.Settled K secret o o' answered)
    (hagree : K.agree o.channelSeed ⟨o'.channelKey K⟩ = .ok secret) (now : Moment) {m : Message}
    (hm : m.Honest (o'.channelKey K) (o.channelKey K) answered) :
    t.Onward (t.handle K now m) ∧ m.Done (t.handle K now m) := by
  cases m with
  | createChannel key date =>
    obtain rfl : key = o'.channelKey K := hm
    obtain ⟨p, routes, hinstall, honward, hinstalled, -⟩ :=
      h.onward_install hagree date false (by rintro ⟨⟩)
    rw [handle_createChannel hinstall, enqueue]
    split_ifs
    · exact ⟨honward, hinstalled⟩
    · have hoffer := onward_offer (t.become p routes)
        (.confirmChannel (p.channelKey K) (o'.channelKey K) p.channelDate)
      exact ⟨honward.trans hoffer, hoffer.installed hinstalled⟩
  | confirmChannel key peerKey date =>
    obtain ⟨rfl, rfl, ha⟩ : key = o'.channelKey K ∧ peerKey = o.channelKey K ∧ answered := hm
    obtain ⟨p, routes, hinstall, honward, -, hready⟩ :=
      h.onward_install hagree date true fun _ => ha
    rw [handle_confirmChannel h.bond.channelKey_eq.symm hinstall]
    exact ⟨honward, hready rfl⟩
  | reinit => cases hm
  | part => cases hm
  | answer id data =>
    refine ⟨?_, trivial⟩
    rw [handle, handleAnswer]
    split <;> exact onward_of_eq rfl rfl rfl
  | custom => exact ⟨onward_of_eq rfl rfl rfl, trivial⟩
  | nop => exact ⟨.refl t, trivial⟩
  | query => exact ⟨onward_of_eq rfl rfl rfl, trivial⟩

/-- When a packet is taken in, all messages before it have been handled. -/
theorem Settled.onward_takePacket (h : t.Settled K secret o o' answered)
    (hwork : t.conversation.work = []) (now : Moment) {i : Incoming}
    (hi : i.packet.Honest K o' o answered) : t.Onward (t.takePacket K now i) := by
  obtain ⟨-, hchannel⟩ := h.bond.checkPacket hi.dated i.source i.viaChannel now.date
  have hmtu := t.conversation.pair.mtu_checkPacket K i.packet i.source i.viaChannel now.date
  have hbecome : t.Onward (t.become
      (t.conversation.pair.checkPacket K i.packet i.source i.viaChannel now.date).2 t.routes) := by
    apply t.onward_become t.routes hmtu
    · rw [hchannel]
      exact id
    · rw [Pair.channelReady, Pair.channelReady, hchannel]
      exact id
  rw [takePacket]
  split
  · next heq =>
    rw [heq] at hbecome
    exact hbecome
  · next heq =>
    rw [heq] at hbecome
    refine { hbecome with work := ?_ }
    rw [hwork]
    rintro _ ⟨⟩

theorem Settled.onward_receiveOne (h : t.Settled K secret o o' answered)
    (hagree : K.agree o.channelSeed ⟨o'.channelKey K⟩ = .ok secret) (now : Moment) :
    t.Onward (t.receiveOne K now) := by
  rw [receiveOne]
  split_ifs
  · exact .refl t
  · cases hwork : t.conversation.work with
    | cons m rest =>
      have hset : (t.setWork rest).Settled K secret o o' answered :=
        { h with work := fun m' hm' => h.work m' (hwork ▸ List.mem_cons_of_mem m hm') }
      have hm := h.work m (hwork ▸ List.mem_cons_self)
      obtain ⟨honward, hdone⟩ := hset.onward_handle hagree now hm
      refine { honward with work := fun m' hm' => ?_ }
      rw [hwork] at hm'
      obtain rfl | hrest := List.mem_cons.1 hm'
      · exact .inr hdone
      · exact honward.work m' hrest
    | nil =>
      cases hinput : t.conversation.input with
      | nil => exact .refl t
      | cons i rest =>
        have hset : ({ t with conversation := { t.conversation with input := rest } } :
            Turn).Settled K secret o o' answered :=
          { h with input := fun i' hi' => h.input i' (hinput ▸ List.mem_cons_of_mem i hi') }
        have hi := h.input i (hinput ▸ List.mem_cons_self)
        have honward := hset.onward_takePacket hwork now hi
        refine { honward with input := fun i' hi' hvia => ?_ }
        rw [hinput]
        exact (honward.input i' hi' hvia).imp_left (List.mem_cons_of_mem i)

theorem onward_pass (hready : t.conversation.pair.channelReady) (i : Incoming) :
    t.Onward (t.pass i) := by
  have hc := t.conversation_pass i
  refine ⟨?_, ?_, ?_, ?_, fun _ _ _ => .inr ?_⟩
  · rw [hc]
  · rw [Installed, Installed, hc]
    exact id
  · rw [hc]
    exact id
  · rw [hc]
    exact fun _ => .inl
  · rw [hc]
    exact hready

theorem onward_unlockDatagram (hinstalled : t.Installed) (c : Channel) (d : Datagram) :
    t.Onward (t.unlockDatagram c d).2 := by
  obtain ⟨inbox, sealing, hc⟩ :=
    t.conversation_become t.conversation.pair.markReady t.routes
  obtain ⟨c', hc'⟩ := Option.isSome_iff_exists.1 hinstalled
  have hnow : t.conversation.pair.markReady.channelReady := by
    simp [Pair.channelReady, Pair.markReady, hc']
  have hready :
      (t.become t.conversation.pair.markReady t.routes).conversation.pair.channelReady := by
    rw [hc]
    exact hnow
  have honward : t.Onward (t.become t.conversation.pair.markReady t.routes) := by
    apply t.onward_become (p := t.conversation.pair.markReady) t.routes rfl
    · rw [Pair.markReady, Option.isSome_map]
      exact id
    · exact fun _ => hnow
  rw [unlockDatagram]
  split
  · exact .refl t
  · dsimp only
    split
    · exact honward
    · exact honward
    · split_ifs
      · exact honward
      · exact honward.trans (onward_pass hready _)

theorem onward_iterate (K : KeyScheme) (t : Turn) : t.Onward (t.iterate K) := by
  rw [iterate]
  split
  · exact .refl t
  · next first ob _ =>
    obtain ⟨createSent, sent, supply, departing, sealing, hc⟩ := t.conversation_sendFrom K first ob
    apply onward_of_channel_eq
    · rw [hc]
    · rw [hc]
    · rw [hc]
      exact List.Subset.refl _
    · rw [hc]
      exact fun _ hi _ => hi

theorem onward_deliver (t : Turn) (packet : Packet) (source : Address) :
    t.Onward { t with conversation := t.conversation.deliver ⟨packet, source, false⟩ } := by
  rw [Conversation.deliver]
  split_ifs
  · refine onward_of_channel_eq rfl rfl (List.Subset.refl _) fun i hi hvia => ?_
    obtain hold | hnew := List.mem_append.1 hi
    · exact hold
    · rw [List.mem_singleton.1 hnew] at hvia
      cases hvia
  · exact .refl t

theorem onward_list (t : Turn) (l : AddressList) :
    t.Onward (t.become (t.conversation.pair.updateList l) t.routes) := by
  obtain ⟨addresses, listAdopted, hl⟩ := t.conversation.pair.updateList_eq l
  rw [hl]
  exact t.onward_become t.routes rfl id id

end Turn

/-- Each move of an honest end brings the handshake forward. -/
theorem Caller.Settled.onward_act {K : KeyScheme} {secret : Bytes32} {o o' : Opening}
    {e e' : Caller} (h : e.Settled K secret o o' e'.turn.Installed)
    (hagree : K.agree o.channelSeed ⟨o'.channelKey K⟩ = .ok secret) (m : Contact.Move) :
    e.turn.Onward (Contact.act K e e' m).turn := by
  cases m with
  | deliver index source =>
    simp only [Contact.act]
    split
    · next l _ =>
      split_ifs
      · exact e.turn.onward_deliver l.packet source
      · exact .refl e.turn
    · exact .refl e.turn
  | relay index source =>
    simp only [Contact.act]
    split
    · split
      · next l _ keys _ =>
        split_ifs
        · rw [relay]
          split
          · next c payload haddressed =>
            rw [Letter.datagram] at haddressed
            obtain ⟨hc, -⟩ := Turn.addressed?_eq_some Vector.length_toList haddressed
            exact Turn.onward_unlockDatagram (congrArg Option.isSome hc) c _
          · exact .refl e.turn
        · exact .refl e.turn
      · exact .refl e.turn
    · exact .refl e.turn
  | receive now => exact h.turn.onward_receiveOne hagree now
  | send => exact e.turn.onward_iterate K
  | submit m =>
    simp only [Contact.act]
    split_ifs
    · exact e.turn.onward_offer m
    · exact .refl e.turn
  | refill =>
    have hc := e.turn.conversation_refill
    change e.turn.Onward e.turn.refill
    apply Turn.onward_of_eq <;> rw [hc]
  | withdraw id => exact Turn.onward_of_eq rfl rfl rfl
  | transmit => exact Turn.onward_of_eq rfl rfl rfl
  | lock =>
    simp only [Contact.act, Turn.lock]
    split <;> exact Turn.onward_of_eq rfl rfl rfl
  | list l => exact e.turn.onward_list l
  | drawFill => exact Turn.onward_of_channel_eq rfl rfl (List.Subset.refl _) fun _ hi _ => hi
  | reroute routes =>
    simp only [Contact.act, reroute]
    split
    · split_ifs
      · exact Turn.onward_of_eq rfl rfl rfl
      · exact .refl e.turn
    · exact .refl e.turn

/-! ## Runs -/

/-- What is not signed is taken in only when it has come through the channel. -/
theorem Pair.viaChannel_of_checkPacket {K : KeyScheme} {p : Pair} {packet : Packet}
    {source : Address} {viaChannel : Bool} {now : Int32}
    (h : (p.checkPacket K packet source viaChannel now).1 = .ok ())
    (hsignature : packet.signature = none) : viaChannel := by
  obtain ⟨hauth, -⟩ := (p.checkPacket_ok_iff K packet source viaChannel now).1 h
  cases viaChannel with
  | true => rfl
  | false =>
    have hverify : packet.verify K p.remote.key = .error (.packet .missingSignature) := by
      rw [Packet.verify, hsignature]
    simp only [authenticate, hverify, Bool.false_eq_true, if_false] at hauth
    split at hauth
    · split_ifs at hauth
    · cases hauth

/-- The packet that the next iteration of the receiving side takes in. -/
def Turn.takes? (K : KeyScheme) (now : Moment) (t : Turn) : Option Incoming :=
  if t.conversation.isDeaf || t.conversation.outbox.receiverWaits then none
  else
    match t.conversation.work, t.conversation.input with
    | [], i :: _ =>
      match (t.conversation.pair.checkPacket K i.packet i.source i.viaChannel now.date).1 with
      | .ok () => some i
      | .error _ => none
    | _, _ => none

theorem Turn.receiveOne_of_takes? {K : KeyScheme} {now : Moment} {t : Turn} {i : Incoming}
    (h : t.takes? K now = some i) :
    i ∈ t.conversation.input ∧
      (t.conversation.pair.checkPacket K i.packet i.source i.viaChannel now.date).1 = .ok () ∧
      (t.receiveOne K now).conversation.work = i.packet.allMessages := by
  rw [takes?] at h
  split_ifs at h with hguard
  split at h
  · next i' rest hwork hinput =>
    split at h
    · next hok =>
      obtain rfl := Option.some.inj h
      refine ⟨hinput ▸ List.mem_cons_self, hok, ?_⟩
      rw [receiveOne, if_neg hguard, hwork, hinput]
      dsimp only
      rw [takePacket]
      split
      · next heq =>
        rw [heq] at hok
        cases hok
      · rfl
    · cases h
  · cases h

namespace Contact

variable {K : KeyScheme} {O : Side → Opening} {secret : Bytes32} {d : Contact}

theorem Settled.onward_step (h : d.Settled K O secret)
    (hagree : ∀ s, K.agree (O s).channelSeed ⟨(O s.other).channelKey K⟩ = .ok secret)
    (m : Side × Move) (s : Side) : (d s).turn.Onward (d.step K m s).turn := by
  obtain ⟨s', m⟩ := m
  by_cases hs : s = s'
  · subst hs
    rw [Contact.step, Function.update_self]
    exact (h s).onward_act (hagree s) m
  · rw [Contact.step, Function.update_of_ne hs]
    exact .refl (d s).turn

theorem Settled.onward_run (h : d.Settled K O secret)
    (hagree : ∀ s, K.agree (O s).channelSeed ⟨(O s.other).channelKey K⟩ = .ok secret)
    (ms : List (Side × Move)) (s : Side) : (d s).turn.Onward (d.run K ms s).turn := by
  induction ms generalizing d with
  | nil => exact .refl (d s).turn
  | cons m ms ih => exact (h.onward_step hagree m s).trans (ih (h.step hagree m))

/-- By the time nothing is left to be handled, the messages of a packet that was taken in have had
their effect. -/
theorem Settled.done_of_takes? (h : d.Settled K O secret)
    (hagree : ∀ s, K.agree (O s).channelSeed ⟨(O s.other).channelKey K⟩ = .ok secret) {s : Side}
    {now : Moment} {i : Incoming} (htakes : (d s).turn.takes? K now = some i)
    {after : List (Side × Move)} {d' : Contact}
    (hd' : (d.step K (s, .receive now)).run K after = d')
    (hwork : (d' s).turn.conversation.work = []) :
    ∀ m ∈ i.packet.allMessages, m.Done (d' s).turn := by
  intro m hm
  have hstep : (d.step K (s, .receive now) s).turn = (d s).turn.receiveOne K now := by
    rw [Contact.step, Function.update_self]
    rfl
  have honward : (d.step K (s, .receive now) s).turn.Onward (d' s).turn :=
    hd' ▸ (h.step hagree (s, .receive now)).onward_run hagree after s
  obtain ⟨-, -, hmessages⟩ := Turn.receiveOne_of_takes? htakes
  rw [← hmessages, ← hstep] at hm
  obtain hleft | hdone := honward.work m hm
  · rw [hwork] at hleft
    cases hleft
  · exact hdone

section
variable (hagree : ∀ s, K.agree (O s).channelSeed ⟨(O s.other).channelKey K⟩ = .ok secret)
  (hfree : ∀ s, (O s).routes.get? ((O s).keys K secret (O s.other)).inId = none)
  (ms : List (Side × Move)) (hd : (start K O).run K ms = d)
include hagree hfree hd

theorem announces_of_packet? {s : Side} {packet : Packet}
    (hmtu : plainHeaderSize (O s).own.addresses + Config.confirmationLength ≤ (O s).config.mtu)
    (h : (d s).turn.packet? K = some packet) : packet.Announces (d s).pair.channel := by
  subst hd
  obtain ⟨⟨first, ob⟩, -, hpack⟩ := Option.bind_eq_some_iff.1 h
  have hown : ((start K O).run K ms s).pair.own = (O s).own :=
    ((settled_start hfree).run hagree ms s).turn.bond.own
  have hlimit : ((start K O).run K ms s).pair.mtu = (O s).config.mtu :=
    ((settled_start hfree).onward_run hagree ms s).mtu_eq
  refine Outbox.announces_pack ?_ hpack
  rw [hown, hlimit]
  exact hmtu

theorem ready_of_viaChannel {s : Side} {i : Incoming} (hi : i ∈ (d s).turn.conversation.input)
    (hvia : i.viaChannel) : (d s).pair.channelReady := by
  subst hd
  obtain hnew | hready := ((settled_start hfree).onward_run hagree ms s).input i hi hvia
  · cases hnew
  · exact hready

end

/-- Whatever packet an end builds next and whatever happens until it arrives: once the other end has
taken it in and handled its messages, it has a channel with the key of the first, and the channel is
ready if the first had one when it built the packet. -/
theorem delivery_advances_handshake (K : KeyScheme) (O : Side → Opening) {secret : Bytes32}
    (hagree : ∀ s, K.agree (O s).channelSeed ⟨(O s.other).channelKey K⟩ = .ok secret)
    (hfree : ∀ s, (O s).routes.get? ((O s).keys K secret (O s.other)).inId = none)
    (hmtu : ∀ s, plainHeaderSize (O s).own.addresses + Config.confirmationLength ≤
      (O s).config.mtu)
    (ms : List (Side × Move)) {d : Contact} (hd : (start K O).run K ms = d) {s : Side}
    {packet : Packet} (hpacket : (d s).turn.packet? K = some packet)
    (between : List (Side × Move)) {d' : Contact} (hd' : d.run K between = d') {now : Moment}
    {i : Incoming} (htakes : (d' s.other).turn.takes? K now = some i) (hi : i.packet = packet)
    (after : List (Side × Move)) {d'' : Contact}
    (hd'' : (d'.step K (s.other, .receive now)).run K after = d'')
    (hwork : (d'' s.other).turn.conversation.work = []) :
    ∃ c', (d'' s.other).pair.channel = some c' ∧ c'.remoteKey = (d s).pair.channelKey K ∧
      (d'' s).pair.channelKey K = (d s).pair.channelKey K ∧
      ((d s).pair.channel.isSome → c'.ready) := by
  have hsettled : d.Settled K O secret := hd ▸ (settled_start hfree).run hagree ms
  have hsettled' : d'.Settled K O secret := hd' ▸ hsettled.run hagree between
  have htaken := hsettled'.step hagree (s.other, .receive now)
  have hsettled'' : d''.Settled K O secret := hd'' ▸ htaken.run hagree after
  obtain ⟨hinput, hok, -⟩ := Turn.receiveOne_of_takes? htakes
  have hdone := hi ▸ hsettled'.done_of_takes? hagree htakes hd'' hwork
  have hannounces := announces_of_packet? hagree hfree ms hd (hmtu s) hpacket
  have hkey : (d s).pair.channelKey K = (O s).channelKey K := (hsettled s).turn.bond.channelKey_eq
  have hkey'' : (d'' s).pair.channelKey K = (O s).channelKey K :=
    (hsettled'' s).turn.bond.channelKey_eq
  suffices h : ∃ c', (d'' s.other).pair.channel = some c' ∧
      ((d s).pair.channel.isSome → c'.ready) by
    obtain ⟨c', hc', hready⟩ := h
    have hpeer := (hsettled'' s.other).turn.bond.channel c' hc'
    rw [Side.other_other] at hpeer
    exact ⟨c', hc', hpeer.remoteKey_eq.trans hkey.symm, hkey''.trans hkey.symm, hready⟩
  have hready_of (h : (d'' s.other).pair.channelReady) :
      ∃ c', (d'' s.other).pair.channel = some c' ∧ ((d s).pair.channel.isSome → c'.ready) := by
    obtain ⟨c', hc', hready⟩ := (Option.any_eq_true _ _).1 h
    exact ⟨c', hc', fun _ => hready⟩
  generalize (d s).pair.channel = channel at hannounces hready_of ⊢
  cases hannounces with
  | created hm =>
    obtain ⟨c', hc'⟩ := Option.isSome_iff_exists.1 (hdone _ hm)
    exact ⟨c', hc', by rintro ⟨⟩⟩
  | confirmed hm => exact hready_of (hdone _ hm)
  | used hsignature =>
    have hvia : i.viaChannel := Pair.viaChannel_of_checkPacket hok (hi ▸ hsignature)
    have hreached : (start K O).run K (ms ++ between) = d' := by
      rw [← hd', ← hd]
      exact List.foldl_append
    have hready := ready_of_viaChannel hagree hfree (ms ++ between) hreached hinput hvia
    have honward : (d' s.other).turn.Onward (d'' s.other).turn :=
      (hsettled'.onward_step hagree _ s.other).trans (hd'' ▸ htaken.onward_run hagree after s.other)
    exact hready_of (honward.ready hready)

/-- The left end has said something, and the right end has taken it in. -/
def addressed : Contact := (start xorScheme caller).run xorScheme
  [(.left, .submit (.custom [1])), (.left, .send), (.right, .deliver 0 ⟨.v4 0, 0⟩),
    (.right, .receive ⟨0, 100⟩), (.right, .receive ⟨0, 100⟩)]

/-- The right end's answer makes the left end's channel ready. -/
theorem delivery_advances_handshake_addressed :
    ∃ c', (addressed.run xorScheme [(.right, .send), (.left, .deliver 0 ⟨.v4 0, 0⟩),
        (.left, .receive ⟨0, 100⟩), (.left, .receive ⟨0, 100⟩)] .left).pair.channel = some c' ∧
      c'.remoteKey = (addressed .right).pair.channelKey xorScheme ∧ c'.ready := by
  let d' := addressed.run xorScheme [(.right, .send), (.left, .deliver 0 ⟨.v4 0, 0⟩)]
  let d'' := (d'.step xorScheme (.left, .receive ⟨0, 100⟩)).run xorScheme
    [(.left, .receive ⟨0, 100⟩)]
  have hmtu : ∀ s, plainHeaderSize (caller s).own.addresses + Config.confirmationLength ≤
      (caller s).config.mtu := by
    intro s
    cases s <;> decide
  obtain ⟨hinstalled, hbuilt, hsame, hwork⟩ :
      (addressed .right).pair.channel.isSome = true ∧
      ((addressed .right).turn.packet? xorScheme).isSome = true ∧
      ((d' .left).turn.takes? xorScheme ⟨0, 100⟩).map Incoming.packet =
        (addressed .right).turn.packet? xorScheme ∧
      (d'' .left).turn.conversation.work = [] := by decide +kernel
  obtain ⟨packet, hpacket⟩ := Option.isSome_iff_exists.1 hbuilt
  obtain ⟨i, htakes, hi⟩ := Option.map_eq_some_iff.1 (hsame.trans hpacket)
  obtain ⟨c', hc', hkey, -, hready⟩ := delivery_advances_handshake xorScheme caller agree_caller
    (fun _ => rfl) hmtu _ (d := addressed) rfl hpacket
    [(.right, .send), (.left, .deliver 0 ⟨.v4 0, 0⟩)] rfl htakes hi
    [(.left, .receive ⟨0, 100⟩)] rfl hwork
  exact ⟨c', hc', hkey, hready hinstalled⟩

end Contact

end Adnl
