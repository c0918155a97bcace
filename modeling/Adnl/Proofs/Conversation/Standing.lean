import Adnl.Conversation.Late
import Adnl.Proofs.Host.Contact
import Adnl.Proofs.Readiness.Gate
import Mathlib.Logic.Relation

/-! # Where a conversation stands

Of a conversation, the rest of the host sees between whom it is, the routing entry of its channel,
the packets that wait to be handled, and whether it is closed or has ended. A turn changes these and
the routing table in few ways, one after the other; between whom it is never changes.
-/
namespace Adnl

abbrev Entry := ShortId × Registration

def Channel.entry (c : Channel) : Entry := (c.keys.inId, ⟨.channel, c.ticket⟩)

def Pair.route? (p : Pair) : Option Entry := p.channel.map Channel.entry

namespace RouteTable

def discard (r : RouteTable) : Option Entry → RouteTable
  | none => r
  | some e => r.release e.1 e.2.ticket

/-- What may become of an entry that is owned by a channel, and of the table. -/
inductive Reroutes (r : RouteTable) (route? : Option Entry) : Option Entry → RouteTable → Prop
  | kept : Reroutes r route? route? r
  | lost : Reroutes r route? none (r.discard route?)
  /-- The old entry is gone before the new one is asked for. -/
  | replaced {id : ShortId} {ticket : Nat} {r' : RouteTable}
    (h : (r.discard route?).register id .channel = .ok (ticket, r')) :
    Reroutes r route? (some (id, ⟨.channel, ticket⟩)) r'

variable (r : RouteTable)

theorem mem_discard {route? : Option Entry} {e : Entry} :
    e ∈ (r.discard route?).entries ↔ e ∈ r.entries ∧
      ∀ e', route? = some e' → ¬ (e.1 = e'.1 ∧ e.2.ticket = e'.2.ticket) := by
  cases route? with
  | none => simp [discard]
  | some e' =>
    simp only [discard, release, List.mem_filter, Option.some.injEq, forall_eq']
    simp [imp_iff_not_or]

@[simp] theorem issued_discard (route? : Option Entry) :
    (r.discard route?).issued = r.issued := by
  cases route? <;> rfl

theorem discard_discard (route? : Option Entry) :
    (r.discard route?).discard route? = r.discard route? := by
  cases route? with
  | none => rfl
  | some e => simp [discard, release, List.filter_filter]

/-- Frees the id of an entry that is replaced by one with another ticket. -/
def giveUp (before after : Option Entry) : RouteTable :=
  if after.map (·.2.ticket) = before.map (·.2.ticket) then r else r.discard before

theorem giveUp_self (route? : Option Entry) : r.giveUp route? route? = r := if_pos rfl

theorem giveUp_none (route? : Option Entry) : r.giveUp route? none = r.discard route? := by
  cases route? <;> rfl

theorem discard_register {route? : Option Entry} {id : ShortId} {kind : RouteKind} {ticket : Nat}
    {r' : RouteTable} (h : (r.discard route?).register id kind = .ok (ticket, r'))
    (hfresh : ∀ e, route? = some e → e.2.ticket < r.issued) : r'.discard route? = r' := by
  obtain ⟨rfl, rfl⟩ := register_eq_ok h
  cases route? with
  | none => rfl
  | some e =>
    have hne : ¬ (id = e.1 ∧ r.issued = e.2.ticket) := fun heq => (hfresh e rfl).ne heq.2.symm
    simp only [discard, release, List.filter_cons, List.filter_filter, Bool.and_self]
    simp [hne]

/-- Whoever gives up the old entry once more changes nothing. -/
theorem giveUp_of_reroutes {before after : Option Entry} {r' : RouteTable}
    (h : r.Reroutes before after r') (hfresh : ∀ e, before = some e → e.2.ticket < r.issued) :
    r'.giveUp before after = r' := by
  cases h with
  | kept => exact r.giveUp_self before
  | lost => rw [giveUp_none, discard_discard]
  | replaced hregister => exact ite_eq_left_iff.2 fun _ => r.discard_register hregister hfresh

end RouteTable

namespace Pair

theorem closeReplaced_eq (p q : Pair) (routes : RouteTable) :
    Channel.closeReplaced p.channel q.channel routes = routes.giveUp p.route? q.route? := by
  rw [route?, route?, RouteTable.giveUp, Option.map_map, Option.map_map]
  cases p.channel with
  | none =>
    rw [Channel.closeReplaced]
    split_ifs <;> rfl
  | some c => rfl

theorem closeReplaced_none (p : Pair) (routes : RouteTable) :
    Channel.closeReplaced p.channel none routes = routes.discard p.route? :=
  (p.closeReplaced_eq p.dropChannel routes).trans (routes.giveUp_none p.route?)

theorem route?_markReady (p : Pair) : p.markReady.route? = p.route? := by
  rw [route?, markReady, Option.map_map]
  rfl

theorem reroutes_install (K : KeyScheme) (p : Pair) (routes : RouteTable) (key : Bytes32)
    (date : Int32) (ready : Bool) :
    routes.Reroutes p.route? (p.install K routes key date ready).2.1.route?
      (p.install K routes key date ready).2.2 := by
  have hi := p.installing K routes key date ready
  have hclosed := p.closeReplaced_none routes
  generalize p.install K routes key date ready = result at hi ⊢
  cases hi with
  | known =>
    split_ifs
    · exact p.route?_markReady.symm ▸ .kept
    · exact .kept
  | stale => exact .kept
  | disagreed => exact .kept
  | collided =>
    rw [hclosed]
    exact .lost
  | installed _ _ _ hregister =>
    rw [hclosed] at hregister
    exact .replaced hregister

theorem reroutes_onCreateChannel (K : KeyScheme) (p : Pair) (routes : RouteTable) (key : Bytes32)
    (date : Int32) : routes.Reroutes p.route? (p.onCreateChannel K routes key date).2.1.route?
      (p.onCreateChannel K routes key date).2.2 := by
  rw [onCreateChannel_eq]
  exact p.reroutes_install K routes key date false

theorem reroutes_onConfirmChannel (K : KeyScheme) (p : Pair) (routes : RouteTable)
    (key peerKey : Bytes32) (date : Int32) :
    routes.Reroutes p.route? (p.onConfirmChannel K routes key peerKey date).2.1.route?
      (p.onConfirmChannel K routes key peerKey date).2.2 := by
  rw [onConfirmChannel]
  split_ifs
  · exact p.reroutes_install K routes key date true
  · exact .kept

end Pair

/-! ## What is seen of a conversation -/

structure Parties where
  node : Nat
  own : LocalIdentity
  peer : PublicKey

def Pair.parties (p : Pair) (node : Nat) : Parties := ⟨node, p.own, p.remote.key⟩

def Conversation.parties (c : Conversation) : Parties := c.pair.parties c.node

theorem Pair.parties_of_onward {p q : Pair} (h : p.intake.Onward q.intake) (node : Nat) :
    q.parties node = p.parties node := by
  have hown : q.own = p.own := h.own_eq
  have hpeer : q.remote.key = p.remote.key := h.peer_eq
  rw [parties, parties, hown, hpeer]

structure Standing where
  parties : Parties
  route? : Option Entry := none
  input : List Incoming := []
  isClosed : Bool := false
  isDeaf : Bool := false

def Conversation.standing (c : Conversation) : Standing :=
  ⟨c.parties, c.pair.route?, c.input, c.isClosed, c.isDeaf⟩

/-- What is seen of a conversation in the course of a turn. -/
@[ext]
structure Outlook where
  standing : Standing
  routes : RouteTable
  isOver : Bool

def Turn.outlook (t : Turn) : Outlook :=
  ⟨t.conversation.standing, t.routes, decide (.stopped ∈ t.signals)⟩

namespace Outlook

/-- One change in the course of a turn, or of one that may overlook that the conversation has been
closed. -/
inductive Next (late : Prop) (o : Outlook) : Outlook → Prop
  | rerouted {route? : Option Entry} {routes : RouteTable} (hdeaf : o.standing.isDeaf = false)
    (h : o.routes.Reroutes o.standing.route? route? routes) :
    Next late o { o with
      standing := { o.standing with route? }
      routes := routes.giveUp o.standing.route? route? }
  | took {input : List Incoming} (hinput : input <:+ o.standing.input) :
    Next late o { o with standing := { o.standing with input } }
  | passed (i : Incoming) (hopen : o.standing.isClosed = false) :
    Next late o { o with standing := { o.standing with input := o.standing.input ++ [i] } }
  | passedLate (hlate : late) (i : Incoming) (hvia : i.viaChannel = true) :
    Next late o { o with standing := { o.standing with input := o.standing.input ++ [i] } }
  | brokeDown (hdeaf : o.standing.isDeaf = false) :
    Next late o { o with standing := { o.standing with input := [], isDeaf := true } }
  | ended (hdeaf : o.standing.isDeaf = false) (hclosed : o.standing.isClosed = true) :
    Next late o ⟨{ o.standing with route? := none, input := [], isDeaf := true },
      o.routes.discard o.standing.route?, true⟩
  | vanished (hlate : late) (hdeaf : o.standing.isDeaf = true)
    (hclosed : o.standing.isClosed = true) :
    Next late o { o with
      standing := { o.standing with route? := none }
      routes := o.routes.discard o.standing.route? }
  | closed : Next late o { o with standing := { o.standing with isClosed := true } }

end Outlook

/-- Nothing comes of the conversation any more: it is closed and deaf, and has no channel. -/
structure Standing.Over (s : Standing) : Prop where
  isClosed : s.isClosed = true
  isDeaf : s.isDeaf = true
  route? : s.route? = none

theorem Standing.Over.next {late : Prop} {o o' : Outlook} (h : o.standing.Over)
    (hnext : o.Next late o') :
    o'.standing.Over := by
  have hlistens : o.standing.isDeaf ≠ false := by simp [h.isDeaf]
  cases hnext with
  | rerouted hdeaf => exact absurd hdeaf hlistens
  | took => exact ⟨h.isClosed, h.isDeaf, h.route?⟩
  | passed => exact ⟨h.isClosed, h.isDeaf, h.route?⟩
  | passedLate => exact ⟨h.isClosed, h.isDeaf, h.route?⟩
  | brokeDown hdeaf => exact absurd hdeaf hlistens
  | ended hdeaf => exact absurd hdeaf hlistens
  | vanished => exact ⟨h.isClosed, h.isDeaf, rfl⟩
  | closed => exact ⟨rfl, h.isDeaf, h.route?⟩

/-- The receiving side says that it has ended only when it has. -/
theorem Outlook.over_of_isOver {late : Prop} {o o' : Outlook} (h : o.isOver → o.standing.Over)
    (hnext : Relation.ReflTransGen (Next late) o o') : o'.isOver → o'.standing.Over := by
  induction hnext with
  | refl => exact h
  | @tail o₁ o₂ _ hlast ih =>
    intro hover
    by_cases hbefore : o₁.isOver
    · exact (ih hbefore).next hlast
    · cases hlast with
      | ended _ hclosed => exact ⟨hclosed, rfl, rfl⟩
      | _ => exact absurd hover hbefore

/-! ## Turns -/

namespace Turn

def Proceeds (late : Prop) (t t' : Turn) : Prop :=
  Relation.ReflTransGen (Outlook.Next late) t.outlook t'.outlook

variable {late : Prop} {t t' : Turn}

theorem proceeds_of_eq (h : t'.outlook = t.outlook) : t.Proceeds late t' := by
  rw [Proceeds, h]

theorem proceeds_of_next (h : t.outlook.Next late t'.outlook) : t.Proceeds late t' := .single h

theorem Proceeds.trans {t'' : Turn} (h : t.Proceeds late t') (h' : t'.Proceeds late t'') :
    t.Proceeds late t'' :=
  Relation.ReflTransGen.trans h h'

variable (K : KeyScheme) (t)

theorem outlook_eq {c : Conversation} (hc : c.standing = t.conversation.standing)
    {signals : List Signal} (h : .stopped ∉ signals) :
    (⟨c, t.routes, t.signals ++ signals⟩ : Turn).outlook = t.outlook := by
  simp [outlook, hc, h]

theorem outlook_signal {s : Signal} (hs : s ≠ .stopped) : (t.signal s).outlook = t.outlook :=
  t.outlook_eq rfl (by simpa using hs.symm)

theorem outlook_offer (m : Message) : (t.offer m).outlook = t.outlook := by
  simp only [offer]
  split_ifs
  · exact outlook_signal _ (by rintro ⟨⟩)
  · rfl

theorem outlook_enqueue (m : Message) : (t.enqueue m).2.outlook = t.outlook := by
  rw [enqueue]
  split_ifs
  · rfl
  · exact t.outlook_offer m

theorem outlook_depart (outgoing : Except Error Outgoing) :
    (t.depart outgoing).outlook = t.outlook := by
  unfold depart
  split
  · rfl
  · exact outlook_signal _ (by rintro ⟨⟩)
  · exact outlook_signal _ (by rintro ⟨⟩)

theorem outlook_sendFrom (first : Message) (o : Outbox) :
    (t.sendFrom K first o).outlook = t.outlook := by
  obtain ⟨_, _, _, _, _, hc⟩ := t.conversation_sendFrom K first o
  refine Outlook.ext ?_ (t.routes_sendFrom K first o) ?_
  · simp only [outlook, hc]
    rfl
  · unfold sendFrom
    split
    · rfl
    · exact (congrArg Outlook.isOver (outlook_depart _ _)).trans rfl

theorem outlook_sendAll : (t.sendAll K).outlook = t.outlook := by
  fun_induction sendAll K t with
  | case1 => rfl
  | case2 t =>
    rw [finishSending]
    split_ifs
    · exact outlook_signal _ (by rintro ⟨⟩)
    · rfl
  | case3 => rfl
  | case4 t _ _ _ first o _ ih => exact ih.trans (t.outlook_sendFrom K first o)

theorem outlook_sendLate : (t.sendLate K).outlook = t.outlook := by
  simp only [sendLate]
  split_ifs
  · rfl
  · split
    · rfl
    · exact t.outlook_sendFrom K _ _

theorem outlook_refill : t.refill.outlook = t.outlook := by
  simp only [refill]
  split_ifs
  · rw [outlook_signal _ (by rintro ⟨⟩), outlook_signal _ (by rintro ⟨⟩)]
    rfl
  · rw [outlook_signal _ (by rintro ⟨⟩)]
    rfl
  · rw [outlook_signal _ (by rintro ⟨⟩)]
    rfl
  · rfl

theorem outlook_send : (t.send K).outlook = t.outlook :=
  (outlook_refill _).trans (t.outlook_sendAll K)

theorem outlook_transmit : t.transmit.outlook = t.outlook := by
  have hdatagram {l : List (Address × Bytes)} {f : Address × Bytes → Signal}
      (hf : ∀ a, f a ≠ .stopped) : Signal.stopped ∉ l.map f := by
    simp [hf]
  simp only [transmit, List.append_assoc]
  refine t.outlook_eq rfl fun h => ?_
  obtain h | h := List.mem_append.1 h
  · exact hdatagram (by simp) (List.mem_of_mem_take h)
  · obtain h | h := List.mem_append.1 h
    · cases List.mem_singleton.1 h
    · exact hdatagram (by simp) (List.mem_of_mem_drop h)

theorem outlook_lock : t.lock.outlook = t.outlook := by
  rw [lock]
  split
  · exact t.outlook_eq rfl (by simp [sealed])
  · rfl

theorem outlook_lockLate : t.lockLate.outlook = t.outlook := by
  simp only [lockLate]
  split
  · rfl
  · exact t.outlook_eq rfl (by simp [sealed])

theorem outlook_await (now : Nat) (id : Bytes32) : (t.await now id).outlook = t.outlook := by
  rw [await]
  split
  · rfl
  · split <;> rfl

theorem outlook_awaitLate (now : Nat) (id : Bytes32) : (t.awaitLate now id).outlook = t.outlook := by
  rw [awaitLate]
  split
  · rfl
  · split <;> rfl

theorem outlook_pursue (now : Nat) (id : Bytes32) : (t.pursue now id).outlook = t.outlook := by
  rw [pursue]
  split
  · rfl
  · split_ifs
    · rfl
    · exact t.outlook_await now id
    · simp only [beginCall]
      split
      · rfl
      · rw [outlook_await]
        split_ifs
        · rfl
        · exact outlook_offer _ _

theorem proceeds_close : t.Proceeds late t.close := by
  obtain ⟨tasks, ht⟩ := t.close_eq
  have hclosed : t.close.outlook =
      { t.outlook with standing := { t.conversation.standing with isClosed := true } } := by
    rw [ht]
    exact outlook_eq { t with conversation := { t.conversation with isClosed := true } } rfl
      (by simp)
  exact proceeds_of_next (hclosed ▸ .closed)

theorem outlook_become (p : Pair) (routes : RouteTable) :
    (t.become p routes).outlook =
      ⟨{ t.conversation.standing with
          parties := p.parties t.conversation.node
          route? := p.route? },
        Channel.closeReplaced t.conversation.pair.channel p.channel routes, t.outlook.isOver⟩ := by
  obtain ⟨_, _, hc⟩ := t.conversation_become p routes
  refine Outlook.ext ?_ (t.routes_become p routes) ?_
  · simp only [outlook, hc]
    rfl
  · simp only [become]
    split_ifs <;> simp [outlook, signal]

theorem outlook_become_of_channel_eq {p : Pair}
    (hparties : p.parties t.conversation.node = t.conversation.parties)
    (hchannel : p.channel = t.conversation.pair.channel) :
    (t.become p t.routes).outlook = t.outlook := by
  rw [outlook_become, hparties, hchannel, Channel.closeReplaced_self, Pair.route?, hchannel]
  rfl

theorem proceeds_become {p : Pair} {routes : RouteTable}
    (hparties : p.parties t.conversation.node = t.conversation.parties)
    (hdeaf : t.conversation.isDeaf = false)
    (h : t.routes.Reroutes t.conversation.pair.route? p.route? routes) :
    t.Proceeds late (t.become p routes) := by
  rw [Proceeds, outlook_become, hparties, Pair.closeReplaced_eq]
  exact .single (.rerouted hdeaf h)

/-- The channel stays, or the pair starts over without one. -/
theorem proceeds_become_of_dated {p : Pair}
    (hparties : p.parties t.conversation.node = t.conversation.parties)
    (hdeaf : t.conversation.isDeaf = false) (h : t.conversation.pair.bond.Dated p.bond) :
    t.Proceeds late (t.become p t.routes) := by
  generalize hb : p.bond = b at h
  cases h with
  | kept =>
    exact proceeds_of_eq (t.outlook_become_of_channel_eq hparties (congrArg Bond.channel hb))
  | startedOver =>
    have hnone : p.channel = none := congrArg Bond.channel hb
    have hroutes : t.routes.discard t.conversation.pair.route? =
        (t.routes.discard t.conversation.pair.route?).giveUp t.conversation.pair.route? none := by
      rw [RouteTable.giveUp_none, RouteTable.discard_discard]
    rw [Proceeds, outlook_become, hparties, Pair.route?, hnone, Pair.closeReplaced_none, hroutes]
    exact .single (.rerouted hdeaf .lost)

theorem proceeds_takePacket (hdeaf : t.conversation.isDeaf = false) (now : Moment) (i : Incoming) :
    t.Proceeds late (t.takePacket K now i) := by
  have hdated := t.conversation.pair.dated_checkPacket K i.packet i.source i.viaChannel now.date
  have honward := t.conversation.pair.onward_checkPacket K i.packet i.source i.viaChannel now.date
  rw [takePacket]
  split
  · next heq =>
    rw [heq] at hdated honward
    exact t.proceeds_become_of_dated (Pair.parties_of_onward honward _) hdeaf hdated
  · next heq =>
    rw [heq] at hdated honward
    exact t.proceeds_become_of_dated (Pair.parties_of_onward honward _) hdeaf hdated

theorem proceeds_handle (hdeaf : t.conversation.isDeaf = false) (now : Moment) (m : Message) :
    t.Proceeds late (t.handle K now m) := by
  cases m with
  | createChannel key date =>
    have hreroutes := t.conversation.pair.reroutes_onCreateChannel K t.routes key date
    obtain ⟨channel, hp⟩ := t.conversation.pair.snd_onCreateChannel K t.routes key date
    have hparties : (t.conversation.pair.onCreateChannel K t.routes key date).2.1.parties
        t.conversation.node = t.conversation.parties := by
      rw [hp]
      rfl
    simp only [handle]
    split
    · next heq =>
      rw [heq] at hreroutes hparties
      exact (t.proceeds_become hparties hdeaf hreroutes).trans
        (proceeds_of_eq (outlook_enqueue _ _))
    · next heq =>
      rw [heq] at hreroutes hparties
      exact t.proceeds_become hparties hdeaf hreroutes
  | confirmChannel key peerKey date =>
    obtain ⟨channel, hp⟩ := t.conversation.pair.snd_onConfirmChannel K t.routes key peerKey date
    exact t.proceeds_become (hp ▸ rfl) hdeaf
      (t.conversation.pair.reroutes_onConfirmChannel K t.routes key peerKey date)
  | reinit date =>
    refine t.proceeds_become_of_dated ?_ hdeaf ?_
    · exact Pair.parties_of_onward (t.conversation.pair.onward_after K (.date date now.date)) _
    · rw [Pair.snd_observeDate]
      exact t.conversation.pair.dated_raise date now.date
  | part hash totalSize offset data =>
    simp only [handle, handlePart]
    split
    · exact proceeds_of_eq rfl
    · exact proceeds_of_eq rfl
    · exact proceeds_of_next (.brokeDown hdeaf)
  | answer id data =>
    rw [handle, handleAnswer]
    split
    · exact proceeds_of_eq (outlook_signal _ (by rintro ⟨⟩))
    · exact proceeds_of_eq rfl
  | custom data => exact proceeds_of_eq (t.outlook_signal (by rintro ⟨⟩))
  | query id data => exact proceeds_of_eq (t.outlook_signal (by rintro ⟨⟩))
  | nop => exact proceeds_of_eq rfl

theorem proceeds_finishReceiving (hdeaf : t.conversation.isDeaf = false)
    (hclosed : t.conversation.isClosed = true) : t.Proceeds late t.finishReceiving := by
  have hclose : t.close = t := if_pos hclosed
  have hended : t.finishReceiving.outlook =
      ⟨{ t.conversation.standing with route? := none, input := [], isDeaf := true },
        t.routes.discard t.conversation.pair.route?, true⟩ := by
    have hbecome := t.outlook_become t.conversation.pair.dropChannel t.routes
    have hstanding : (t.become t.conversation.pair.dropChannel t.routes).conversation.standing =
        { t.conversation.standing with route? := none } := congrArg Outlook.standing hbecome
    rw [finishReceiving, hclose]
    refine Outlook.ext ?_ ?_ (by simp [outlook, signal])
    · exact congrArg (fun s : Standing => { s with input := [], isDeaf := true }) hstanding
    · exact (congrArg Outlook.routes hbecome).trans (t.conversation.pair.closeReplaced_none _)
  exact proceeds_of_next (hended ▸ .ended hdeaf hclosed)

theorem isDeaf_eq_false
    (h : ¬ (t.conversation.isDeaf || t.conversation.outbox.receiverWaits) = true) :
    t.conversation.isDeaf = false :=
  (Bool.or_eq_false_iff.1 (Bool.eq_false_iff.2 h)).1

theorem proceeds_takeNext (hdeaf : t.conversation.isDeaf = false) (now : Moment) {i : Incoming}
    {rest : List Incoming} (hinput : t.conversation.input = i :: rest) : t.Proceeds late
      (({ t with conversation := { t.conversation with input := rest } } : Turn).takePacket K now
        i) := by
  let t' : Turn := { t with conversation := { t.conversation with input := rest } }
  have htook : t.Proceeds late t' := proceeds_of_next (.took ⟨[i], hinput.symm⟩)
  exact htook.trans (t'.proceeds_takePacket K hdeaf now i)

theorem proceeds_receiveLate (now : Moment) : t.Proceeds late (t.receiveLate K now) := by
  simp only [receiveLate]
  split_ifs with hguard
  · exact proceeds_of_eq rfl
  · split
    · next hinput => exact t.proceeds_takeNext K (t.isDeaf_eq_false hguard) now hinput
    · exact proceeds_of_eq rfl

theorem proceeds_receiveAll (now : Moment) : t.Proceeds late (t.receiveAll K now) := by
  fun_induction receiveAll K now t with
  | case1 => exact proceeds_of_eq rfl
  | case2 t hguard m rest _ ih =>
    exact ((t.setWork rest).proceeds_handle K (t.isDeaf_eq_false hguard) now m).trans ih
  | case3 t hguard _ hclosed =>
    exact t.proceeds_finishReceiving (t.isDeaf_eq_false hguard) hclosed
  | case4 => exact proceeds_of_eq rfl
  | case5 t hguard _ _ i rest hinput ih =>
    exact (t.proceeds_takeNext K (t.isDeaf_eq_false hguard) now hinput).trans ih

theorem outlook_pass (i : Incoming) : (t.pass i).outlook =
    { t.outlook with
      standing := { t.conversation.standing with input := t.conversation.input ++ [i] } } := by
  simp only [pass]
  split_ifs
  · rfl
  · exact outlook_signal _ (by rintro ⟨⟩)

theorem proceeds_unlockDatagram (hopen : t.conversation.isClosed = false ∨ late) (c : Channel)
    (d : Datagram) : t.Proceeds late (t.unlockDatagram c d).2 := by
  have hready : ({ t with conversation := { t.conversation with
      pair := t.conversation.pair.markReady } } : Turn).outlook = t.outlook := by
    refine Outlook.ext ?_ rfl rfl
    simp only [outlook, Conversation.standing, Pair.route?_markReady]
    rfl
  simp only [unlockDatagram, become_markReady]
  split
  · exact proceeds_of_eq rfl
  · split
    · exact proceeds_of_eq hready
    · exact proceeds_of_eq hready
    · split_ifs
      · exact proceeds_of_eq hready
      · refine (proceeds_of_eq hready).trans (proceeds_of_next ?_)
        rw [outlook_pass]
        obtain hopen | hlate := hopen
        · exact .passed _ hopen
        · exact .passedLate hlate _ rfl

theorem isClosed_unlockDatagram (c : Channel) (d : Datagram) :
    (t.unlockDatagram c d).2.conversation.isClosed = t.conversation.isClosed := by
  obtain ⟨_, _, _, ht, -⟩ := t.snd_unlockDatagram c d
  rw [ht]

theorem proceeds_unlockAll (hopen : t.conversation.isClosed = false) (c : Channel)
    (ds : List Datagram) : t.Proceeds late (unlockAll c t ds) := by
  induction ds generalizing t with
  | nil => exact proceeds_of_eq rfl
  | cons d rest ih =>
    have hd : t.Proceeds late (t.unlockDatagram c d).2 :=
      t.proceeds_unlockDatagram (.inl hopen) c d
    have hclosed := t.isClosed_unlockDatagram c d
    simp only [unlockAll]
    split_ifs
    · exact proceeds_of_eq rfl
    · split
      · next heq =>
        rw [heq] at hd hclosed
        exact hd.trans (ih _ (hclosed.trans hopen))
      · next heq =>
        rw [heq] at hd
        exact hd.trans (proceeds_of_eq rfl)

theorem proceeds_unlock : t.Proceeds late t.unlock := by
  simp only [unlock]
  by_cases hclosed : t.conversation.isClosed
  · rw [if_pos hclosed]
    exact proceeds_of_eq rfl
  · rw [if_neg hclosed]
    split
    · exact proceeds_of_eq rfl
    · exact proceeds_unlockAll { t with conversation := { t.conversation with
        inbox := { t.conversation.inbox with datagrams := [] } } } (Bool.eq_false_iff.2 hclosed) _ _

theorem proceeds_unlockLate (hlate : late) : t.Proceeds late t.unlockLate := by
  simp only [unlockLate]
  split
  · next channel d rest _ _ =>
    split_ifs
    · exact proceeds_of_eq rfl
    · let t' : Turn := { t with conversation := { t.conversation with
        inbox := { t.conversation.inbox with datagrams := rest } } }
      have hd : t.Proceeds late (t'.unlockDatagram channel d).2 :=
        t'.proceeds_unlockDatagram (.inr hlate) channel d
      split
      · next heq =>
        rw [heq] at hd
        exact hd
      · next heq =>
        rw [heq] at hd
        exact hd.trans (proceeds_of_eq rfl)
  · exact proceeds_of_eq rfl

/-! ## All tasks -/

/-- What a turn of any task does to what is seen. -/
theorem proceeds_run (now : Moment) (task : Task) : t.Proceeds late (t.run K now task) := by
  cases task with
  | receive =>
    have h : t.Proceeds late (t.receiveAll K now) := t.proceeds_receiveAll K now
    simp only [run, receive]
    split_ifs
    · exact h.trans (proceeds_of_eq (outlook_signal _ (by rintro ⟨⟩)))
    · exact h
  | send => exact proceeds_of_eq (t.outlook_send K)
  | transmit => exact proceeds_of_eq t.outlook_transmit
  | unlock => exact t.proceeds_unlock
  | lock => exact proceeds_of_eq t.outlook_lock
  | pursue id => exact proceeds_of_eq (t.outlook_pursue now.elapsed id)

theorem proceeds_late (hlate : late) (now : Moment) (task : Task) :
    t.Proceeds late (t.late K now task) := by
  cases task with
  | receive => exact t.proceeds_receiveLate K now
  | send => exact proceeds_of_eq (t.outlook_sendLate K)
  | transmit => exact proceeds_of_eq t.outlook_transmit
  | unlock => exact t.proceeds_unlockLate hlate
  | lock => exact proceeds_of_eq t.outlook_lockLate
  | pursue id => exact proceeds_of_eq (t.outlook_awaitLate now.elapsed id)

theorem proceeds_vanish (hlate : late) : t.Proceeds late t.vanish := by
  simp only [vanish]
  split_ifs with hover
  · obtain ⟨hclosed, hdeaf⟩ := Bool.and_eq_true_iff.1 hover
    have hroutes := t.conversation.pair.closeReplaced_none t.routes
    rw [Proceeds, outlook_become, show t.conversation.pair.dropChannel.channel = none from rfl,
      hroutes]
    exact .single (.vanished hlate hdeaf hclosed)
  · exact proceeds_of_eq rfl

end Turn

end Adnl
