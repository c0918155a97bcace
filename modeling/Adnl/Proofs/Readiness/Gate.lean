import Adnl.Proofs.Conversation.Iterations
import Adnl.Proofs.Pair.Install

/-! # What decides whether a channel is ready

A pair's channel changes in four ways: it becomes ready, it is given up, a new one is installed, or
nothing happens to it. Which of them it is, and what a new channel is made of, is all that later
arguments need to know of a turn.
-/
namespace Adnl

/-- What becomes of a routing table in the course of time: entries go, and those that come have
tickets that were not given out before. -/
structure RouteTable.Leads (r r' : RouteTable) : Prop where
  issued_le : r.issued ≤ r'.issued
  mem : ∀ e ∈ r'.entries, e ∈ r.entries ∨ r.issued ≤ e.2.ticket ∧ e.2.ticket < r'.issued

namespace RouteTable

variable (r : RouteTable)

theorem Leads.refl : r.Leads r := ⟨Nat.le_refl _, fun _ => .inl⟩

theorem Leads.trans {r r' r'' : RouteTable} (h : r.Leads r') (h' : r'.Leads r'') :
    r.Leads r'' where
  issued_le := h.issued_le.trans h'.issued_le
  mem e he := by
    obtain hmid | ⟨hle, hlt⟩ := h'.mem e he
    · exact (h.mem e hmid).imp_right fun hnew => ⟨hnew.1, hnew.2.trans_le h'.issued_le⟩
    · exact .inr ⟨h.issued_le.trans hle, hlt⟩

theorem leads_release (id : ShortId) (ticket : Nat) : r.Leads (r.release id ticket) :=
  ⟨Nat.le_refl _, fun _ he => .inl (List.mem_of_mem_filter he)⟩

@[simp] theorem issued_closeReplaced (before after : Option Channel) :
    (Channel.closeReplaced before after r).issued = r.issued := by
  unfold Channel.closeReplaced
  split
  · rfl
  · split_ifs <;> rfl

theorem entries_closeReplaced (before after : Option Channel) :
    (Channel.closeReplaced before after r).entries ⊆ r.entries := by
  unfold Channel.closeReplaced
  split
  · exact List.Subset.refl _
  · split_ifs
    · exact List.Subset.refl _
    · exact List.filter_subset_self _

theorem leads_closeReplaced (before after : Option Channel) :
    r.Leads (Channel.closeReplaced before after r) :=
  ⟨(r.issued_closeReplaced before after).ge, fun _ he => .inl (r.entries_closeReplaced _ _ he)⟩

theorem mem_of_get? {r : RouteTable} {id : ShortId} {registration : Registration}
    (h : r.get? id = some registration) : (id, registration) ∈ r.entries := by
  obtain ⟨l, l', hentries, -⟩ := List.lookup_eq_some_iff.1 h
  rw [hentries]
  exact List.mem_append_right _ List.mem_cons_self

theorem register_eq_ok {r r' : RouteTable} {id : ShortId} {kind : RouteKind} {ticket : Nat}
    (h : r.register id kind = .ok (ticket, r')) :
    ticket = r.issued ∧ r' = ⟨(id, ⟨kind, ticket⟩) :: r.entries, r.issued + 1⟩ := by
  rw [register] at h
  split at h
  · cases h
  · obtain ⟨rfl, rfl⟩ := Prod.mk.inj (Except.ok.inj h)
    exact ⟨rfl, rfl⟩

theorem leads_register {r r' : RouteTable} {id : ShortId} {kind : RouteKind} {ticket : Nat}
    (h : r.register id kind = .ok (ticket, r')) : r.Leads r' := by
  obtain ⟨rfl, rfl⟩ := register_eq_ok h
  refine ⟨Nat.le_succ _, fun e he => ?_⟩
  obtain rfl | hold := List.mem_cons.1 he
  · exact .inr ⟨Nat.le_refl _, Nat.lt_succ_self _⟩
  · exact .inl hold

end RouteTable

/-- The keys come from the own channel key and the remote key. -/
def Channel.Derived (K : KeyScheme) (b : Bond) (c : Channel) : Prop :=
  ∃ secret, K.agree b.channelSeed ⟨c.remoteKey⟩ = .ok secret ∧
    c.keys = .derive secret (b.own.key K).shortId b.peer.shortId

/-- A date of the peer leaves the channel alone, or it makes the pair start over with another
channel key. -/
inductive Bond.Dated (b : Bond) : Bond → Prop
  | kept (date : Int32) : Dated b { b with date }
  | startedOver (date : Int32) (channelSeed : Bytes32) :
    Dated b { b with date, channelSeed, channel := none }

theorem Bond.Dated.trans {b b' b'' : Bond} (h : b.Dated b') (h' : b'.Dated b'') :
    b.Dated b'' := by
  cases h with
  | kept =>
    cases h' with
    | kept date => exact .kept date
    | startedOver date seed => exact .startedOver date seed
  | startedOver _ seed =>
    cases h' with
    | kept date => exact .startedOver date seed
    | startedOver date seed => exact .startedOver date seed

namespace Pair

section
variable (p : Pair)

theorem dated_raise (date now : Int32) : p.bond.Dated (p.raise date now).bond := by
  rw [raise, reinit]
  split_ifs
  · exact .kept date
  · exact .startedOver date _
  · exact .kept p.peerReinitDate

theorem dated_checkPacket (K : KeyScheme) (packet : Packet) (source : Address) (viaChannel : Bool)
    (now : Int32) : p.bond.Dated (p.checkPacket K packet source viaChannel now).2.bond := by
  apply checkPacket_preserves (P := fun q => p.bond.Dated q.bond)
  · exact fun q date hq => hq.trans (q.dated_raise date now)
  · exact .kept p.peerReinitDate
  · intro q hq
    rw [bond_deliver]
    exact hq
  · intro q l hq
    rw [bond_applyHeader]
    exact hq

end

theorem bond_markReady {p : Pair} {c : Channel} (hc : p.channel = some c) :
    p.markReady.bond = { p.bond with channel := some { c with ready := true } } := by
  rw [markReady, hc]
  rfl

/-- What can come of the other end's key. -/
inductive Installs (K : KeyScheme) (p : Pair) (routes : RouteTable) (key : Bytes32) (ready : Bool) :
    Pair × RouteTable → Prop
  | refused : Installs K p routes key ready (p, routes)
  /-- The key is known, and the peer has confirmed the own one. -/
  | confirmed {c : Channel} (hc : p.channel = some c) (hkey : c.remoteKey = key) (hready : ready) :
    Installs K p routes key ready (p.markReady, routes)
  | lost : Installs K p routes key ready
    (p.dropChannel, Channel.closeReplaced p.channel none routes)
  | installed {c : Channel} {routes' : RouteTable} (hkeys : c.Derived K p.bond)
    (hkey : c.remoteKey = key) (hready : c.ready = ready) (hticket : c.ticket = routes.issued)
    (hissued : routes'.issued = routes.issued + 1)
    (hentries : ∀ e ∈ routes'.entries, e ∈ routes.entries ∨
      e = (c.keys.inId, ⟨.channel, c.ticket⟩)) :
    Installs K p routes key ready ({ p with channel := some c }, routes')

theorem installs_install (K : KeyScheme) (p : Pair) (routes : RouteTable) (key : Bytes32)
    (date : Int32) (ready : Bool) :
    Installs K p routes key ready (p.install K routes key date ready).2 := by
  have hi := p.installing K routes key date ready
  generalize p.install K routes key date ready = result at hi ⊢
  cases hi with
  | known hc hkey =>
    by_cases hready : ready
    · rw [if_pos hready]
      exact .confirmed hc hkey hready
    · rw [if_neg hready]
      exact .refused
  | stale => exact .refused
  | disagreed => exact .refused
  | collided => exact .lost
  | installed _ hagree hkeys hregister =>
    obtain ⟨hticket, hroutes⟩ := RouteTable.register_eq_ok hregister
    rw [routes.issued_closeReplaced] at hticket hroutes
    refine .installed ⟨_, hagree, hkeys.symm⟩ rfl rfl hticket (by rw [hroutes]) fun e he => ?_
    rw [hroutes, ← hticket] at he
    exact (List.mem_cons.1 he).symm.imp_left (routes.entries_closeReplaced _ _ ·)

theorem installs_onCreateChannel (K : KeyScheme) (p : Pair) (routes : RouteTable) (key : Bytes32)
    (date : Int32) :
    Installs K p routes key false (p.onCreateChannel K routes key date).2 := by
  rw [onCreateChannel_eq]
  exact installs_install K p routes key date false

theorem installs_onConfirmChannel (K : KeyScheme) (p : Pair) (routes : RouteTable)
    (key peerKey : Bytes32) (date : Int32) :
    Installs K p routes key (peerKey = p.channelKey K)
      (p.onConfirmChannel K routes key peerKey date).2 := by
  rw [onConfirmChannel]
  by_cases hkey : peerKey = p.channelKey K
  · simp only [hkey, if_true, decide_true]
    exact installs_install K p routes key date true
  · simp only [hkey, if_false]
    exact .refused

end Pair

/-- What readiness hangs on: the pair's channel and what it comes from, the datagrams that have come
in for it, and the routing table. -/
structure Gate where
  bond : Bond
  datagrams : List Datagram
  routes : RouteTable

def Turn.gate (t : Turn) : Gate :=
  ⟨t.conversation.pair.bond, t.conversation.inbox.datagrams, t.routes⟩

structure Gate.Fresh (g : Gate) : Prop where
  channel : ∀ c, g.bond.channel = some c → c.ticket < g.routes.issued
  entries : ∀ e ∈ g.routes.entries, e.2.ticket < g.routes.issued

/-- What may become of the channel in a turn that brings the given proofs of readiness. -/
inductive Gate.Next (K : KeyScheme) (proof : Channel → Prop) (g : Gate) : Gate → Prop
  | kept {date : Int32} {datagrams : List Datagram} {routes : RouteTable}
    (hdatagrams : datagrams ⊆ g.datagrams) (hroutes : g.routes.Leads routes) :
    Next K proof g ⟨{ g.bond with date }, datagrams, routes⟩
  | readied {c : Channel} {datagrams : List Datagram} (hc : g.bond.channel = some c)
    (hproof : proof c) (hdatagrams : datagrams ⊆ g.datagrams) :
    Next K proof g
      ⟨{ g.bond with channel := some { c with ready := true } }, datagrams, g.routes⟩
  | lost {date : Int32} {channelSeed : Bytes32} {datagrams : List Datagram} {routes : RouteTable}
    (hroutes : g.routes.Leads routes) :
    Next K proof g ⟨{ g.bond with date, channelSeed, channel := none }, datagrams, routes⟩
  /-- A channel that has just been installed starts without datagrams. -/
  | installed {c : Channel} {routes : RouteTable} (hkeys : c.Derived K g.bond)
    (hticket : c.ticket = g.routes.issued) (hissued : routes.issued = g.routes.issued + 1)
    (hentries : ∀ e ∈ routes.entries, e ∈ g.routes.entries ∨
      e = (c.keys.inId, ⟨.channel, c.ticket⟩))
    (hready : c.ready → proof c) :
    Next K proof g ⟨{ g.bond with channel := some c }, [], routes⟩

theorem Gate.Next.refl (K : KeyScheme) (proof : Channel → Prop) (g : Gate) : g.Next K proof g :=
  .kept (List.Subset.refl _) (.refl _)

theorem RouteTable.Leads.fresh {r r' : RouteTable} (h : r.Leads r')
    (hfresh : ∀ e ∈ r.entries, e.2.ticket < r.issued) : ∀ e ∈ r'.entries, e.2.ticket < r'.issued :=
  fun e he => (h.mem e he).elim (fun hold => (hfresh e hold).trans_le h.issued_le) And.right

theorem Gate.Fresh.next {K : KeyScheme} {proof : Channel → Prop} {g g' : Gate} (h : g.Fresh)
    (hnext : g.Next K proof g') : g'.Fresh := by
  cases hnext with
  | kept _ hroutes =>
    exact ⟨fun c hc => (h.channel c hc).trans_le hroutes.issued_le, hroutes.fresh h.entries⟩
  | @readied c _ hc =>
    refine ⟨?_, h.entries⟩
    rintro _ ⟨⟩
    exact h.channel c hc
  | lost hroutes => exact ⟨by rintro _ ⟨⟩, hroutes.fresh h.entries⟩
  | @installed c routes _ hticket hissued hentries =>
    have hlt : c.ticket < routes.issued := by
      rw [hticket, hissued]
      exact Nat.lt_succ_self _
    refine ⟨?_, fun r hr => ?_⟩
    · rintro _ ⟨⟩
      exact hlt
    · obtain hold | rfl := hentries r hr
      · exact (h.entries r hold).trans (hissued ▸ Nat.lt_succ_self _)
      · exact hlt

/-- A channel that is ready was ready before, or something has shown that it is. -/
theorem Gate.Next.proof_of_ready {K : KeyScheme} {proof : Channel → Prop} {g g' : Gate}
    (h : g.Next K proof g') {c : Channel} (hc : g'.bond.channel = some c) (hready : c.ready) :
    g.bond.channel = some c ∨ ∃ ready, proof { c with ready } := by
  cases h with
  | kept => exact .inl hc
  | @readied c' _ _ hproof =>
    obtain rfl := Option.some.inj hc
    exact .inr ⟨c'.ready, hproof⟩
  | lost => cases hc
  | installed _ _ _ _ hproof =>
    obtain rfl := Option.some.inj hc
    exact .inr ⟨_, hproof hready⟩

namespace Turn

variable (K : KeyScheme) (t : Turn) {proof : Channel → Prop}

theorem gate_become (p : Pair) (routes : RouteTable) : ∃ datagrams, (t.become p routes).gate =
    ⟨p.bond, datagrams, Channel.closeReplaced t.conversation.pair.channel p.channel routes⟩ := by
  obtain ⟨inbox, _, hc⟩ := t.conversation_become p routes
  refine ⟨inbox.datagrams, ?_⟩
  rw [gate, t.routes_become, hc]

theorem gate_become_of_eq {p : Pair} (hchannel : p.channel = t.conversation.pair.channel)
    (routes : RouteTable) :
    (t.become p routes).gate = ⟨p.bond, t.conversation.inbox.datagrams, routes⟩ := by
  have hticket : ({ t.conversation with pair := p } : Conversation).ticket? =
      t.conversation.ticket? := congrArg (Option.map Channel.ticket) hchannel
  simp only [become, hchannel, Channel.closeReplaced_self, hticket, if_true, gate]

theorem gate_become_of_ne {p : Pair}
    (hticket : p.channel.map Channel.ticket ≠ t.conversation.ticket?) (routes : RouteTable) :
    (t.become p routes).gate =
      ⟨p.bond, [], Channel.closeReplaced t.conversation.pair.channel p.channel routes⟩ := by
  have hticket' : ({ t.conversation with pair := p } : Conversation).ticket? ≠
      t.conversation.ticket? := hticket
  simp only [become, hticket', if_false, gate]
  split_ifs <;> rfl

theorem next_become_of_dated {p : Pair} (h : t.conversation.pair.bond.Dated p.bond) :
    t.gate.Next K proof (t.become p t.routes).gate := by
  obtain ⟨datagrams, hlost⟩ := t.gate_become p t.routes
  generalize hb : p.bond = b at h
  cases h with
  | kept date =>
    have hchannel : p.channel = t.conversation.pair.channel := congrArg Bond.channel hb
    rw [t.gate_become_of_eq hchannel, hb]
    exact .kept (List.Subset.refl _) (.refl _)
  | startedOver date seed =>
    rw [hlost, hb]
    exact .lost (t.routes.leads_closeReplaced _ _)

/-- What comes of the other end's key. That the channel is a new one shows in its ticket, which had
not been given out before. -/
theorem next_become_of_installs (hfresh : t.gate.Fresh) {key : Bytes32} {ready : Bool} {p : Pair}
    {routes : RouteTable} (h : Pair.Installs K t.conversation.pair t.routes key ready (p, routes))
    (hproof : ready → ∀ c : Channel, c.remoteKey = key → proof c) :
    t.gate.Next K proof (t.become p routes).gate := by
  cases h with
  | refused =>
    rw [t.gate_become_of_eq rfl]
    exact .refl K proof t.gate
  | @confirmed c hc hkey hready =>
    rw [become_markReady]
    simp only [gate, Pair.bond_markReady hc]
    exact .readied hc (hproof hready c hkey) (List.Subset.refl _)
  | lost =>
    obtain ⟨datagrams, hlost⟩ := t.gate_become t.conversation.pair.dropChannel
      (Channel.closeReplaced t.conversation.pair.channel none t.routes)
    rw [hlost]
    exact .lost ((t.routes.leads_closeReplaced _ _).trans (RouteTable.leads_closeReplaced _ _ _))
  | @installed c _ hkeys hkey hready hticket hissued hentries =>
    have hne : (some c).map Channel.ticket ≠ t.conversation.ticket? := by
      intro heq
      obtain ⟨old, hold, hsame⟩ := Option.map_eq_some_iff.1 heq.symm
      have hlt : old.ticket < t.routes.issued := hfresh.channel old hold
      rw [hsame, hticket] at hlt
      exact Nat.lt_irrefl _ hlt
    rw [t.gate_become_of_ne hne]
    refine .installed hkeys hticket ?_ (fun e he => ?_) fun hc => hproof (hready ▸ hc) c hkey
    · rw [RouteTable.issued_closeReplaced]
      exact hissued
    · exact hentries e (routes.entries_closeReplaced _ _ he)

theorem gate_enqueue (m : Message) : (t.enqueue m).2.gate = t.gate := by
  rw [enqueue]
  split_ifs
  · rfl
  · rw [gate, conversation_offer, routes_offer]
    rfl

/-- Of the messages, only a confirmation of the own channel key shows that the peer is ready. -/
theorem next_handle (hfresh : t.gate.Fresh) (now : Moment) (m : Message)
    (hproof : ∀ (c : Channel) date,
      m = .confirmChannel c.remoteKey (t.conversation.pair.channelKey K) date → proof c) :
    t.gate.Next K proof (t.handle K now m).gate := by
  cases m with
  | createChannel key date =>
    have hinstalls := t.conversation.pair.installs_onCreateChannel K t.routes key date
    simp only [handle]
    split
    · next heq =>
      rw [heq] at hinstalls
      rw [gate_enqueue]
      exact t.next_become_of_installs K hfresh hinstalls (by rintro ⟨⟩)
    · next heq =>
      rw [heq] at hinstalls
      exact t.next_become_of_installs K hfresh hinstalls (by rintro ⟨⟩)
  | confirmChannel key peerKey date =>
    refine t.next_become_of_installs K hfresh
      (t.conversation.pair.installs_onConfirmChannel K t.routes key peerKey date) ?_
    intro hready c hkey
    refine hproof c date ?_
    rw [hkey, of_decide_eq_true hready]
  | reinit date =>
    have hdated : t.conversation.pair.bond.Dated
        (t.conversation.pair.observeDate date now.date).2.bond := by
      rw [Pair.snd_observeDate]
      exact t.conversation.pair.dated_raise date now.date
    exact t.next_become_of_dated K hdated
  | answer id data =>
    rw [handle, handleAnswer]
    split <;> exact .refl K proof t.gate
  | part hash totalSize offset data =>
    simp only [handle, handlePart]
    split <;> exact .refl K proof t.gate
  | custom => exact .refl K proof t.gate
  | nop => exact .refl K proof t.gate
  | query => exact .refl K proof t.gate

theorem next_takePacket (now : Moment) (i : Incoming) :
    t.gate.Next K proof (t.takePacket K now i).gate := by
  have hdated := t.conversation.pair.dated_checkPacket K i.packet i.source i.viaChannel now.date
  rw [takePacket]
  split
  · next heq =>
    rw [heq] at hdated
    exact t.next_become_of_dated K hdated
  · next heq =>
    rw [heq] at hdated
    exact t.next_become_of_dated K hdated

theorem next_finishReceiving : t.gate.Next K proof t.finishReceiving.gate := by
  obtain ⟨datagrams, hlost⟩ := t.close.gate_become t.conversation.pair.dropChannel t.routes
  have hgate : t.finishReceiving.gate =
      (t.close.become t.conversation.pair.dropChannel t.routes).gate := rfl
  rw [hgate, hlost]
  exact .lost (t.routes.leads_closeReplaced _ _)

/-- The message that is handled next says that the peer has the channel, for the own channel key. -/
def Confirms (c : Channel) : Prop :=
  ∃ date, t.handles? = some (.confirmChannel c.remoteKey (t.conversation.pair.channelKey K) date)

theorem next_receiveNext (hfresh : t.gate.Fresh) (now : Moment) :
    t.gate.Next K (t.Confirms K) (t.receiveNext K now).gate := by
  rw [receiveNext]
  split_ifs with hguard hend
  · exact .refl K _ t.gate
  · exact t.next_finishReceiving K
  · rw [receiveOne, if_neg hguard]
    cases hwork : t.conversation.work with
    | cons m rest =>
      refine (t.setWork rest).next_handle K hfresh now m fun c date hm => ⟨date, ?_⟩
      rw [handles?, if_neg hguard, hwork, List.head?_cons, hm]
      rfl
    | nil =>
      cases hinput : t.conversation.input with
      | nil => exact .refl K _ t.gate
      | cons i rest =>
        exact next_takePacket K { t with conversation := { t.conversation with input := rest } }
          now i

/-- The datagram that is opened next opens under the key of the channel. -/
def Opens (c : Channel) : Prop :=
  ∃ d data, t.conversation.pair.channel = some c ∧ t.opens? = some d ∧
    Envelope.unlock c.keys.decrypt d.payload = .ok data

theorem next_unlockNext : t.gate.Next K t.Opens t.unlockNext.gate := by
  have hkept : t.gate.Next K t.Opens t.closeInbox.gate := .kept (List.nil_subset _) (.refl _)
  rw [unlockNext]
  by_cases hclosed : t.conversation.isClosed
  · rw [if_pos hclosed]
    exact hkept
  rw [if_neg hclosed]
  split
  · next c d rest hc hdatagrams =>
    by_cases hfull : t.conversation.config.queueCapacity ≤ t.conversation.input.length
    · rw [if_pos hfull]
      exact .refl K _ t.gate
    rw [if_neg hfull]
    have hopens : t.opens? = some d := by
      simp [opens?, hclosed, hfull, hdatagrams]
    have hrest : rest ⊆ t.conversation.inbox.datagrams := hdatagrams ▸ List.subset_cons_self d rest
    obtain ⟨pair, input, signals, hturn, hpair⟩ := (t.setQueue rest).snd_unlockDatagram c d
    have hnext (datagrams : List Datagram) (hsub : datagrams ⊆ t.conversation.inbox.datagrams) :
        t.gate.Next K t.Opens ⟨pair.bond, datagrams, t.routes⟩ := by
      obtain rfl | ⟨rfl, data, hdata⟩ := hpair
      · exact .kept hsub (.refl _)
      · have hbond := Pair.bond_markReady hc
        rw [setQueue, hbond]
        exact .readied hc ⟨d, data, hc, hopens, hdata⟩ hsub
    split
    · next heq =>
      rw [heq] at hturn
      dsimp only at hturn
      rw [hturn]
      exact hnext rest hrest
    · next heq =>
      rw [heq] at hturn
      dsimp only at hturn
      rw [hturn]
      exact hnext [] (List.nil_subset _)
  · exact .refl K _ t.gate

theorem gate_sendAll : (t.sendAll K).gate = t.gate := by
  fun_induction sendAll K t with
  | case1 t => rfl
  | case2 t =>
    rw [finishSending]
    split_ifs <;> rfl
  | case3 t => rfl
  | case4 t _ _ _ first o _ ih =>
    obtain ⟨_, _, _, _, _, hc⟩ := t.conversation_sendFrom K first o
    rw [ih, gate, hc, routes_sendFrom]
    rfl

theorem gate_send : (t.send K).gate = t.gate := by
  rw [send, gate, conversation_refill, routes_refill]
  exact t.gate_sendAll K

theorem gate_lock : t.lock.gate = t.gate := by
  rw [lock]
  split <;> rfl

theorem gate_await (now : Nat) (id : Bytes32) : (t.await now id).gate = t.gate := by
  rw [await]
  split
  · rfl
  · split <;> rfl

theorem gate_pursue (now : Nat) (id : Bytes32) : (t.pursue now id).gate = t.gate := by
  rw [pursue]
  split
  · rfl
  · next call _ =>
    split_ifs
    · rfl
    · exact t.gate_await now id
    · simp only [beginCall]
      split
      · rfl
      · rw [gate_await]
        split_ifs
        · rfl
        · rw [gate, conversation_offer, routes_offer]
          rfl

theorem gate_close : t.close.gate = t.gate := by
  rw [close]
  split_ifs <;> rfl

end Turn

end Adnl
