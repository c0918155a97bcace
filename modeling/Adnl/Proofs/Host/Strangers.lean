import Adnl.Proofs.Host.Letters
import Adnl.Proofs.Host.Parties

/-! # Strangers cannot touch a conversation

A datagram is followed on its way in. Anything may happen on the host between two of its steps. As
long as no signature and no channel vouches for the datagram, no step does anything to a
conversation that is there. An envelope that cannot be read at all may stop the node, though.
-/
namespace Adnl

namespace Host

/-- The conversation of a node that a packet's sender names. It is started for a key that comes
along. -/
def named? (h : Host) (n : Nat) (p : Packet) : Option Nat :=
  p.senderName.bind fun remote =>
    match h.live? n remote with
    | some i => some i
    | none => p.sender.map fun _ => h.conversations.length

def namedKey? (h : Host) (n : Nat) (p : Packet) : Option PublicKey :=
  p.senderName.bind fun remote =>
    match h.live? n remote with
    | some i => h.conversations[i]?.map fun c => c.pair.remote.key
    | none => p.sender

/-- The host with the conversation that a packet begins: none, unless its sender has no live
conversation with the node and its key came along. -/
def welcome (h : Host) (n : Nat) (date : Int32) (p : Packet) : Host :=
  match h.nodes[n]?, p.sender with
  | some node, some key =>
    let remote := key.shortId
    if (h.live? n remote).isSome then h
    else
      let i := h.conversations.length
      { h with
        conversations := h.conversations ++
          [.new n h.config (.new node.own ⟨key, {}⟩ h.config date (h.supplies i))]
        nodes := h.nodes.modify n fun node =>
          { node with
            peers := (remote, i) :: node.peers.filter (·.1 ≠ remote)
            announced := node.announced.push i } }
  | _, _ => h

def recipient (K : KeyScheme) (h : Host) (n : Nat) (d : Datagram) : Place :=
  match h.contents? K n d with
  | some (.ok packet) => (h.named? n packet).elim .done (.conversation · ⟨packet, d.source, false⟩)
  | _ => .done

end Host

/-- Opens a datagram that waited for the channel with the given ticket. When that channel has been
given up, so has the datagram. -/
def Turn.unlockOne (ticket : Nat) (d : Datagram) (t : Turn) : Turn :=
  match t.conversation.pair.channel with
  | none => t
  | some c =>
    if c.ticket = ticket then
      match t.unlockDatagram c d with
      | (true, t) => t
      | (false, t) => t.closeInbox
    else t

structure Passage where
  host : Host
  place : Place

namespace Passage

variable (K : KeyScheme)

/-- The next step on the way. What opens through a channel is not followed any further. -/
def forward (now : Moment) (w : Passage) : Passage :=
  match w.place with
  | .socket d => ⟨Host.routeDatagram now.elapsed w.host d, w.host.destination now.elapsed d⟩
  | .node n d => ⟨w.host.serveOne K n now.date d, w.host.recipient K n d⟩
  | .channel i ticket d => ⟨w.host.turn i (Turn.unlockOne ticket d), .done⟩
  | .conversation i p => ⟨w.host.turn i fun t => t.takePacket K now p, .done⟩
  | .done => w

/-- The datagram is authentic: the packet in the envelope is signed by the key of the conversation
that its sender names, or the payload opens under the key of the channel that it is for. -/
def Vouched (w : Passage) : Prop :=
  match w.place with
  | .node n d => ∃ packet key, w.host.contents? K n d = some (.ok packet) ∧
      w.host.namedKey? n packet = some key ∧ packet.verify K key = .ok ()
  | .channel i ticket d => ∃ c channel data, w.host.conversations[i]? = some c ∧
      c.pair.channel = some channel ∧ channel.ticket = ticket ∧
      Envelope.unlock channel.keys.decrypt d.payload = .ok data
  | _ => False

/-- A datagram that nothing has vouched for so far has come this far: it arrives at any host, and
between its steps anything happens there. -/
inductive Strange : Passage → Prop
  | arrives (h : Host) (d : Datagram) : Strange ⟨h, .socket d⟩
  | meanwhile {w : Passage} (hw : Strange w) (a : Host.Act) :
      Strange { w with host := w.host.act K a }
  | goesOn {w : Passage} (hw : Strange w) (hv : ¬ w.Vouched K) (now : Moment) :
      Strange (w.forward K now)

/-- What a step should come to when nothing vouches for the datagram: at the socket it is counted,
and at a node its packet may begin a conversation. -/
def aftermath (now : Moment) (w : Passage) : Host :=
  match w.place with
  | .socket d => (w.host.checkRate now.elapsed d.source.ip).2
  | .node n d =>
    match w.host.contents? K n d with
    | some (.ok packet) => w.host.welcome n now.date packet
    | _ => w.host
  | _ => w.host

/-- The next step stops the node that the datagram has come to. -/
def Fatal (w : Passage) : Prop :=
  ∃ n d node, w.place = .node n d ∧ w.host.stops K n d = true ∧ w.host.nodes[n]? = some node ∧
    node.inbox.isOpen = true

end Passage

/-! ## What stays the same -/

/-- A conversation apart from what waits to be looked at. -/
def Conversation.settled (c : Conversation) : Conversation :=
  { c with input := [], inbox := { c.inbox with datagrams := [] } }

def Node.settled (n : Node) : Node := { n with inbox := { n.inbox with datagrams := [] } }

def Listener.settled (l : Listener) : Listener :=
  { l with inbox := { l.inbox with datagrams := [] } }

def Effect.isWake : Effect → Bool
  | .wake _ => true
  | .send .. => false

/-- A host apart from what waits to be looked at and from who has been woken for it. -/
def Host.settled (h : Host) : Host :=
  { h with
    listeners := h.listeners.map Listener.settled
    nodes := h.nodes.map Node.settled
    conversations := h.conversations.map Conversation.settled
    effects := h.effects.filter fun e => !e.isWake }

theorem Inbox.push_eq (b : Inbox) (d : Datagram) :
    ∃ datagrams, b.push d = { b with datagrams } := by
  rw [push]
  split_ifs <;> exact ⟨_, rfl⟩

theorem Conversation.settled_deliver (c : Conversation) (p : Incoming) :
    (c.deliver p).settled = c.settled := by
  rw [deliver]
  split_ifs <;> rfl

namespace Host

variable {K : KeyScheme} {h h' : Host} {n : Nat} {d : Datagram}

@[simp]
theorem settled_wake (h : Host) (a : Activity) : (h.wake a).settled = h.settled := by
  simp [wake, emit, settled, Effect.isWake]

theorem settled_modifyNode (h : Host) (n : Nat) {f : Node → Node}
    (hf : ∀ node, (f node).settled = node.settled) : (h.modifyNode n f).settled = h.settled := by
  rw [settled, modifyNode, map_modify_of_eq hf]
  rfl

theorem find_of_settled (hsettled : h'.settled = h.settled) {i : Nat} {c : Conversation}
    (hc : h.conversations[i]? = some c) :
    ∃ c', h'.conversations[i]? = some c' ∧ c'.settled = c.settled := by
  have hi : (h'.conversations.map Conversation.settled)[i]? =
      (h.conversations.map Conversation.settled)[i]? :=
    congrArg (fun h : Host => h.conversations[i]?) hsettled
  rw [List.getElem?_map, List.getElem?_map, hc] at hi
  exact Option.map_eq_some_iff.1 hi

/-- Who talks to whom does not depend on what waits. -/
theorem live?_settled (h : Host) (n : Nat) (remote : ShortId) :
    h.settled.live? n remote = h.live? n remote := by
  simp only [live?, settled, List.getElem?_map]
  cases h.nodes[n]? with
  | none => rfl
  | some node =>
    simp only [Option.map_some, Option.bind_eq_bind, Option.bind_some, Node.settled]
    cases node.peers.lookup remote with
    | none => rfl
    | some i =>
      simp only [Option.bind_some]
      cases h.conversations[i]? <;> rfl

theorem settled_queueFor (h : Host) (r : Registration) (d : Datagram) :
    (h.queueFor r d).settled = h.settled := by
  rw [queueFor]
  split_ifs
  · have hlisteners : (h.listeners.map fun l =>
        if l.ticket = r.ticket then { l with inbox := l.inbox.push d } else l).map
          Listener.settled = h.listeners.map Listener.settled := by
      rw [List.map_map]
      refine List.map_congr_left fun l _ => ?_
      obtain ⟨datagrams, hpush⟩ := l.inbox.push_eq d
      rw [Function.comp_apply, hpush]
      split_ifs <;> rfl
    rw [settled, hlisteners]
    rfl
  · cases r.kind with
    | localNode =>
      dsimp only [queueForNode]
      cases h.nodes.findIdx? (·.ticket = r.ticket) with
      | none => rfl
      | some n =>
        dsimp only
        rw [settled_wake]
        refine settled_modifyNode h n fun node => ?_
        obtain ⟨datagrams, hpush⟩ := node.inbox.push_eq d
        rw [hpush]
        rfl
    | channel =>
      dsimp only [queueForChannel]
      cases h.conversations.findIdx? (·.ticket? = some r.ticket) with
      | none => rfl
      | some i =>
        dsimp only
        rw [settled_wake, settled, map_modify_of_eq fun c => ?_]
        · rfl
        · obtain ⟨datagrams, hpush⟩ := c.inbox.push_eq d
          rw [hpush]
          rfl

theorem settled_sort (h : Host) (d : Datagram) : (h.sort d).settled = h.settled := by
  simp only [sort]
  split
  · rfl
  · split
    · rfl
    · exact h.settled_queueFor _ _

theorem settled_routeDatagram (now : Nat) (h : Host) (d : Datagram) :
    (routeDatagram now h d).settled = (h.checkRate now d.source.ip).2.settled := by
  rw [routeDatagram]
  split
  · next heq =>
    rw [settled_sort, heq]
  · next heq => rw [heq]

theorem destination_ne_conversation (h : Host) (now : Nat) (d : Datagram) (i : Nat)
    (p : Incoming) : h.destination now d ≠ .conversation i p := by
  intro hd
  have hroute := routeDatagram_eq now h d
  rw [hd] at hroute
  exact hroute

theorem settled_deliver (h : Host) (i : Nat) (p : Incoming) :
    (h.deliver i p).settled = h.settled := by
  rw [deliver]
  split
  · rfl
  · next c hc =>
    have hset : ({ h with conversations := h.conversations.set i (c.deliver p) } : Host).settled =
        h.settled := by
      rw [settled, map_set_of_eq hc (c.settled_deliver p)]
      rfl
    split_ifs
    · exact hset
    · rw [settled_wake, hset]

/-- Nothing is done with a packet but that it is put before the conversation that its sender names,
which is started for it if need be. -/
theorem settled_present (h : Host) (n : Nat) (date : Int32) (p : Incoming) :
    (h.present n date p).settled = (h.welcome n date p.packet).settled := by
  rw [present, welcome]
  cases hn : h.nodes[n]? with
  | none => rfl
  | some node =>
    cases hsender : p.packet.sender with
    | none =>
      simp only [admitPacket, hsender]
      split
      · rfl
      · split
        · exact h.settled_deliver _ p
        · rfl
    | some key =>
      simp only [admitPacket, hsender, senderName_of_sender hsender]
      cases h.live? n key.shortId with
      | some i => exact h.settled_deliver i p
      | none =>
        simp only [Option.isSome_none, Bool.false_eq_true, if_false]
        rw [settled_deliver, start, announce, modifyNode]
        simp only [settled, wake, emit, modifyNode, List.modify_modify_eq, Effect.isWake,
          List.filter_append]
        simp [Function.comp_def]

theorem queries_welcome (h : Host) (n : Nat) (date : Int32) (p : Packet) :
    (h.welcome n date p).queries = h.queries := by
  rw [welcome]
  split
  · dsimp only
    split_ifs <;> rfl
  · rfl

/-- The conversation that a packet's sender names is there or is started, and has the key that is
looked for. -/
theorem find_named {node : Node} (hn : h.nodes[n]? = some node) {i : Nat} {p : Packet}
    (hi : h.named? n p = some i) (date : Int32) :
    ∃ c, (h.welcome n date p).conversations[i]? = some c ∧
      h.namedKey? n p = some c.pair.remote.key := by
  obtain ⟨remote, hname, hi⟩ := Option.bind_eq_some_iff.1 hi
  simp only [namedKey?, hname, Option.bind_some, welcome, hn]
  cases hsender : p.sender with
  | none =>
    cases hlive : h.live? n remote with
    | none => simp [hlive, hsender] at hi
    | some j =>
      rw [hlive] at hi
      obtain rfl := Option.some.inj hi
      obtain ⟨_, c, -, -, hc, -⟩ := exists_open_of_live? hlive
      exact ⟨c, hc, by simp [hc]⟩
  | some key =>
    obtain rfl : remote = key.shortId := by
      rw [senderName_of_sender hsender] at hname
      exact (Option.some.inj hname).symm
    cases hlive : h.live? n key.shortId with
    | some j =>
      rw [hlive] at hi
      obtain rfl := Option.some.inj hi
      obtain ⟨_, c, -, -, hc, -⟩ := exists_open_of_live? hlive
      exact ⟨c, by simp [hlive, hc], by simp [hc]⟩
    | none =>
      rw [hlive, hsender] at hi
      obtain rfl := Option.some.inj hi
      let c : Conversation := .new n h.config
        (.new node.own ⟨key, {}⟩ h.config date (h.supplies h.conversations.length))
      refine ⟨c, ?_, rfl⟩
      simp only [hlive, Option.isSome_none, Bool.false_eq_true, if_false]
      exact List.getElem?_concat_length

theorem recipient_eq_conversation {i : Nat} {p : Incoming} :
    h.recipient K n d = .conversation i p ↔ ∃ packet, h.contents? K n d = some (.ok packet) ∧
      h.named? n packet = some i ∧ p = ⟨packet, d.source, false⟩ := by
  rw [recipient]
  split
  · next packet heq =>
    cases hnamed : h.named? n packet with
    | none => simp [heq, hnamed]
    | some j => simp [heq, hnamed, eq_comm]
  · next hne => exact ⟨nofun, fun ⟨packet, heq, _⟩ => absurd heq (hne packet)⟩

theorem settled_closeInbox_iff {node : Node} (hn : h.nodes[n]? = some node) :
    (h.closeInbox n).settled = h.settled ↔ node.inbox.isOpen = false := by
  constructor
  · intro heq
    have hnode : ((h.closeInbox n).nodes[n]?).map Node.settled = some node.settled := by
      rw [← List.getElem?_map]
      refine (congrArg (fun h : Host => h.nodes[n]?) heq).trans ?_
      simp only [settled, List.getElem?_map, hn, Option.map_some]
    rw [closeInbox, modifyNode, getElem?_modify_of_some hn, if_pos rfl, Option.map_some] at hnode
    exact (congrArg (fun node : Node => node.inbox.isOpen) (Option.some.inj hnode)).symm
  · intro hclosed
    have hmap : (h.nodes.modify n fun node => { node with inbox := node.inbox.close }).map
        Node.settled = h.nodes.map Node.settled := by
      ext j : 1
      simp only [List.getElem?_map, List.getElem?_modify]
      split_ifs with hj
      · rw [← hj, hn]
        exact congrArg (fun isOpen => some { node with inbox := ⟨node.inbox.capacity, [], isOpen⟩ })
          hclosed.symm
      · exact congrArg (Option.map Node.settled) (id_map _)
    rw [settled, closeInbox, modifyNode, hmap]
    rfl

theorem exists_of_contents? {r : Except Failure Packet} (hr : h.contents? K n d = some r) :
    ∃ node, h.nodes[n]? = some node := by
  obtain ⟨node, hn, -⟩ := Option.bind_eq_some_iff.1 hr
  exact ⟨node, hn⟩

theorem stops_iff : h.stops K n d = true ↔ h.contents? K n d = some (.error .outOfRange) := by
  rw [stops]
  split <;> simp_all

end Host

/-! ## Before a conversation -/

namespace Turn

theorem become_self (t : Turn) : t.become t.conversation.pair t.routes = t := by
  rw [become, Channel.closeReplaced_self]
  exact if_pos rfl

/-- A packet without the right signature is dropped, and that is all. -/
theorem takePacket_of_not_verify {K : KeyScheme} {t : Turn} {i : Incoming}
    (hvia : i.viaChannel = false)
    (hverify : i.packet.verify K t.conversation.pair.remote.key ≠ .ok ()) (now : Moment) :
    t.takePacket K now i = t := by
  have hrefused : ∃ e, t.conversation.pair.authenticate K i.packet i.viaChannel = .error e := by
    simp only [Pair.authenticate, hvia, Bool.false_eq_true, if_false]
    cases hv : i.packet.verify K t.conversation.pair.remote.key with
    | ok u => exact absurd hv hverify
    | error e =>
      -- Once there is a channel, the packet may be refused before anyone looks at its signature.
      split
      · split_ifs <;> exact ⟨_, rfl⟩
      · exact ⟨_, rfl⟩
  obtain ⟨e, he⟩ := hrefused
  simp only [takePacket, Pair.checkPacket, he]
  exact t.become_self

theorem unlockOne_of_not_opens {t : Turn} {ticket : Nat} {d : Datagram}
    (h : ∀ c data, t.conversation.pair.channel = some c → c.ticket = ticket →
      Envelope.unlock c.keys.decrypt d.payload ≠ .ok data) : t.unlockOne ticket d = t := by
  rw [unlockOne]
  split
  · rfl
  · next c hc =>
    split_ifs with hticket
    · rw [unlockDatagram]
      cases hdata : Envelope.unlock c.keys.decrypt d.payload with
      | error e => rfl
      | ok data => exact absurd hdata (h c data hc hticket)
    · rfl

theorem unlockNext_eq {t : Turn} {c : Channel} {d : Datagram} {rest : List Datagram}
    (hc : t.conversation.pair.channel = some c) (hd : t.opens? = some d)
    (hqueue : t.conversation.inbox.datagrams = d :: rest) :
    t.unlockNext = (t.setQueue rest).unlockOne c.ticket d := by
  have hc' : (t.setQueue rest).conversation.pair.channel = some c := hc
  rw [opens?] at hd
  split_ifs at hd with hguard
  simp only [Bool.or_eq_true, decide_eq_true_eq, not_or] at hguard
  simp only [unlockNext, hguard.1, hguard.2, hc, hqueue, unlockOne, hc', if_true, if_false]
  rfl

/-- A queue of payloads that do not open gets shorter in a turn of the inward side, and that is
all. -/
theorem exists_unlock_eq_setQueue {t : Turn} {c : Channel} (hopen : t.conversation.isClosed = false)
    (hc : t.conversation.pair.channel = some c)
    (hsealed : ∀ d ∈ t.conversation.inbox.datagrams, ∀ data,
      Envelope.unlock c.keys.decrypt d.payload ≠ .ok data) : ∃ rest, t.unlock = t.setQueue rest := by
  obtain ⟨n, hn⟩ := t.exists_unlock_eq_unlockNext
  rw [hn]
  clear hn
  induction n generalizing t with
  | zero => exact ⟨t.conversation.inbox.datagrams, rfl⟩
  | succ n ih =>
    rw [Function.iterate_succ_apply]
    cases hd : t.opens? with
    | none =>
      have hsame : t.unlockNext = t := by
        rw [opens?] at hd
        simp only [unlockNext, hopen, hc, Bool.false_eq_true, if_false]
        cases hqueue : t.conversation.inbox.datagrams with
        | nil => rfl
        | cons d rest =>
          refine if_pos ?_
          by_contra hroom
          simp [hopen, hroom, hqueue] at hd
      rw [hsame]
      exact ih hopen hc hsealed
    | some d =>
      obtain ⟨rest, hqueue⟩ : ∃ rest, t.conversation.inbox.datagrams = d :: rest := by
        rw [opens?] at hd
        split_ifs at hd
        exact ⟨_, List.eq_cons_of_mem_head? hd⟩
      have hnext : t.unlockNext = t.setQueue rest := by
        rw [unlockNext_eq hc hd hqueue]
        refine unlockOne_of_not_opens fun c' data hc' _ => ?_
        obtain rfl : c = c' := Option.some.inj (hc.symm.trans hc')
        exact hsealed d (hqueue ▸ List.mem_cons_self) data
      rw [hnext]
      exact ih (t := t.setQueue rest) hopen hc fun d' hd' =>
        hsealed d' (hqueue ▸ List.mem_cons_of_mem d hd')

theorem receiveNext_eq {t : Turn} {i : Incoming} {rest : List Incoming} (K : KeyScheme)
    (now : Moment) (hready : (t.conversation.isDeaf || t.conversation.outbox.receiverWaits) = false)
    (hwork : t.conversation.work = []) (hopen : t.conversation.isClosed = false)
    (hinput : t.conversation.input = i :: rest) : t.receiveNext K now =
      ({ t with conversation := { t.conversation with input := rest } } : Turn).takePacket K now
        i := by
  simp [receiveNext, receiveOne, hready, hwork, hopen, hinput]

/-- Packets without the right signature are gone after a turn of the receiving side, and that is
all. -/
theorem receiveAll_of_not_verify {K : KeyScheme} {t : Turn} {input : List Incoming}
    (hready : (t.conversation.isDeaf || t.conversation.outbox.receiverWaits) = false)
    (hwork : t.conversation.work = []) (hopen : t.conversation.isClosed = false)
    (hinput : t.conversation.input = input)
    (hforged : ∀ i ∈ input, i.viaChannel = false ∧
      i.packet.verify K t.conversation.pair.remote.key ≠ .ok ()) (now : Moment) :
    t.receiveAll K now = { t with conversation := { t.conversation with input := [] } } := by
  induction input generalizing t with
  | nil =>
    rw [receiveAll_of_isAtRest K now (by simp [isAtRest, hwork, hopen, hinput]), ← hinput]
  | cons i rest ih =>
    obtain ⟨hvia, hverify⟩ := hforged i List.mem_cons_self
    have hnext : t.receiveNext K now =
        { t with conversation := { t.conversation with input := rest } } := by
      rw [receiveNext_eq K now hready hwork hopen hinput]
      exact takePacket_of_not_verify
        (t := { t with conversation := { t.conversation with input := rest } }) hvia hverify now
    rw [← receiveAll_receiveNext, hnext]
    exact ih hready hwork hopen rfl fun j hj => hforged j (List.mem_cons_of_mem i hj)

end Turn

theorem Host.turn_eq_self {h : Host} {i : Nat} {f : Turn → Turn}
    (hf : ∀ c, h.conversations[i]? = some c →
      f { conversation := c, routes := h.routes } = { conversation := c, routes := h.routes }) :
    h.turn i f = h := by
  rw [turn]
  split
  · rfl
  · next c hc =>
    obtain ⟨hi, hget⟩ := List.getElem?_eq_some_iff.1 hc
    have hset : h.conversations.set i c = h.conversations := by
      rw [← hget]
      exact List.set_getElem_self hi
    simp only [hf c hc, hset, List.foldl_nil]

namespace Passage

variable {K : KeyScheme} {w : Passage}

/-! ## Steps and runs -/

/-- A packet that has come before a conversation is not signed by the peer. -/
def Unproven (K : KeyScheme) (w : Passage) : Prop :=
  ∀ i p, w.place = .conversation i p → p.viaChannel = false ∧
    ∃ c, w.host.conversations[i]? = some c ∧ p.packet.verify K c.pair.remote.key ≠ .ok ()

theorem Unproven.act (hw : w.Unproven K) (a : Host.Act) :
    Unproven K { w with host := w.host.act K a } := by
  intro i p hplace
  obtain ⟨hvia, c, hc, hverify⟩ := hw i p hplace
  obtain ⟨c', hc', hparties⟩ := (w.host.grows_act K a).find hc
  have hpeer : c'.pair.remote.key = c.pair.remote.key := congrArg Parties.peer hparties
  exact ⟨hvia, c', hc', hpeer ▸ hverify⟩

/-- The conversation that a packet comes before is the one whose key was asked for. -/
theorem Unproven.serve {h : Host} {n : Nat} {d : Datagram}
    (hv : ¬ Vouched K ⟨h, .node n d⟩) (now : Moment) :
    Unproven K ⟨h.serveOne K n now.date d, h.recipient K n d⟩ := by
  intro i p hplace
  obtain ⟨packet, hcontents, hnamed, rfl⟩ := Host.recipient_eq_conversation.1 hplace
  obtain ⟨node, hnode⟩ := Host.exists_of_contents? hcontents
  obtain ⟨c, hc, hkey⟩ := Host.find_named hnode hnamed now.date
  have hserved : h.serveOne K n now.date d = h.present n now.date ⟨packet, d.source, false⟩ := by
    rw [Host.serveOne, hcontents]
  obtain ⟨c', hc', hsettled⟩ :=
    Host.find_of_settled (h.settled_present n now.date ⟨packet, d.source, false⟩) hc
  have hpeer : c'.pair.remote.key = c.pair.remote.key :=
    congrArg (fun c => c.pair.remote.key) hsettled
  refine ⟨rfl, c', hserved ▸ hc', fun hverify => hv ⟨packet, c.pair.remote.key, hcontents, hkey, ?_⟩⟩
  exact hpeer ▸ hverify

theorem Unproven.forward (hw : w.Unproven K) (hv : ¬ w.Vouched K) (now : Moment) :
    (w.forward K now).Unproven K := by
  obtain ⟨h, place⟩ := w
  cases place with
  | socket d => exact fun i p hplace => absurd hplace (h.destination_ne_conversation _ d i p)
  | node n d => exact Unproven.serve hv now
  | channel => exact fun i p hplace => by cases hplace
  | conversation => exact fun i p hplace => by cases hplace
  | done => exact hw

theorem Strange.unproven (hw : Strange K w) : w.Unproven K := by
  induction hw with
  | arrives => exact fun i p hplace => by cases hplace
  | meanwhile _ a ih => exact ih.act a
  | goesOn _ hv now ih => exact ih.forward hv now

theorem not_fatal {h : Host} {place : Place} (hplace : ∀ n d, place ≠ .node n d) :
    ¬ Fatal K ⟨h, place⟩ :=
  fun ⟨n, d, _, heq, _⟩ => hplace n d heq

theorem settled_serve (K : KeyScheme) (now : Moment) (h : Host) (n : Nat) (d : Datagram) :
    (h.serveOne K n now.date d).settled = (aftermath K now ⟨h, .node n d⟩).settled ↔
      ¬ Fatal K ⟨h, .node n d⟩ := by
  have hfatal : Fatal K ⟨h, .node n d⟩ ↔ h.stops K n d = true ∧
      ∃ node, h.nodes[n]? = some node ∧ node.inbox.isOpen = true := by
    constructor
    · rintro ⟨_, _, node, ⟨⟩, hstops, hn, hopen⟩
      exact ⟨hstops, node, hn, hopen⟩
    · rintro ⟨hstops, node, hn, hopen⟩
      exact ⟨n, d, node, rfl, hstops, hn, hopen⟩
  rw [hfatal, Host.stops_iff, Host.serveOne, aftermath]
  dsimp only
  cases hcontents : h.contents? K n d with
  | none => simp
  | some contents =>
    cases contents with
    | ok packet => simp [h.settled_present n now.date ⟨packet, d.source, false⟩]
    | error e =>
      cases e with
      | refused => simp
      | outOfRange =>
        obtain ⟨node, hn⟩ := Host.exists_of_contents? hcontents
        simp [Host.settled_closeInbox_iff hn, hn]

theorem host_forward_of_stops {h : Host} {n : Nat} {d : Datagram} (hstops : h.stops K n d = true)
    (now : Moment) : (forward K now ⟨h, .node n d⟩).host = h.closeInbox n := by
  change h.serveOne K n now.date d = h.closeInbox n
  rw [Host.serveOne, Host.stops_iff.1 hstops]

/-- A step of a datagram that nothing vouches for is counted at the socket, and one in an envelope
may begin a conversation for the key that came with it. Nothing else changes but what waits to be
looked at, unless the contents of the envelope cannot be read at all: these close the queue of the
node. -/
theorem stranger_disturbs_nobody (hw : Strange K w) (hv : ¬ w.Vouched K) (now : Moment) :
    ((w.forward K now).host.settled = (w.aftermath K now).settled ↔ ¬ w.Fatal K) ∧
      ∀ n d, w.place = .node n d → w.host.stops K n d = true →
        (w.forward K now).host = w.host.closeInbox n := by
  have hproof := hw.unproven
  obtain ⟨h, place⟩ := w
  refine ⟨?_, ?_⟩
  · cases place with
    | socket d =>
      exact iff_of_true (Host.settled_routeDatagram now.elapsed h d) (not_fatal nofun)
    | node n d => exact settled_serve K now h n d
    | channel i ticket d =>
      have hsame : h.turn i (Turn.unlockOne ticket d) = h :=
        Host.turn_eq_self fun c hc => Turn.unlockOne_of_not_opens fun channel data hchannel
          hticket hdata => hv ⟨c, channel, data, hc, hchannel, hticket, hdata⟩
      exact iff_of_true (congrArg Host.settled hsame) (not_fatal nofun)
    | conversation i p =>
      -- Between the node and here the host may have changed, but not whose signature counts.
      obtain ⟨hvia, c, hc, hverify⟩ := hproof i p rfl
      have hsame : h.turn i (fun t => t.takePacket K now p) = h := by
        refine Host.turn_eq_self fun c' hc' => Turn.takePacket_of_not_verify hvia ?_ now
        obtain rfl : c = c' := Option.some.inj (hc.symm.trans hc')
        exact hverify
      exact iff_of_true (congrArg Host.settled hsame) (not_fatal nofun)
    | done => exact iff_of_true rfl (not_fatal nofun)
  · rintro n d ⟨⟩ hstops
    exact host_forward_of_stops hstops now

/-- Data in an envelope for a node, before anybody has looked at it. -/
def incoming (data : Bytes) : Datagram :=
  ⟨⟨.v4 2, 1⟩, Host.doorKey.shortId.bytes.toList ++ Host.enclosed data⟩

def waiting (h : Host) (data : Bytes) : Passage where
  host := Host.routeDatagram 0 h (incoming data)
  place := .node 0 ⟨⟨.v4 2, 1⟩, Host.enclosed data⟩

section Waiting

variable {h : Host} {data : Bytes} (hidle : h.Idle 0 Host.doorKey.shortId)

include hidle

theorem destination_incoming (hdata : data.length < 10000) :
    h.destination 0 (incoming data) = .node 0 ⟨⟨.v4 2, 1⟩, Host.enclosed data⟩ := by
  refine Host.destination_of_idle hidle 0 ⟨.v4 2, 1⟩ ?_
  rw [Host.length_enclosed, Host.idLength, Host.maxDatagramLength]
  omega

theorem settled_waiting (data : Bytes) : (waiting h data).host.settled = h.settled := by
  rw [waiting, Host.settled_routeDatagram, Host.checkRate_of_quiet hidle.1]

theorem strange_waiting (hdata : data.length < 10000) : Strange .transparent (waiting h data) := by
  have harrives : Strange .transparent ⟨h, .socket (incoming data)⟩ := .arrives _ _
  have hforward : forward .transparent ⟨0, 100⟩ ⟨h, .socket (incoming data)⟩ = waiting h data :=
    congrArg (Passage.mk (Host.routeDatagram 0 h (incoming data)))
      (destination_incoming hidle hdata)
  exact hforward ▸ harrives.goesOn id ⟨0, 100⟩

theorem exists_node_waiting (data : Bytes) :
    ∃ node, (waiting h data).host.nodes[0]? = some node ∧ node.inbox.isOpen = true := by
  have hnodes := congrArg (fun h : Host => h.nodes[0]?) (settled_waiting hidle data)
  obtain ⟨-, node, hn, -, hopen, -⟩ := hidle
  rw [Option.mem_def] at hn
  simp only [Host.settled, List.getElem?_map, hn, Option.map_some] at hnodes
  obtain ⟨node', hn', hnode⟩ := Option.map_eq_some_iff.1 hnodes
  exact ⟨node', hn', (congrArg (fun n : Node => n.inbox.isOpen) hnode).trans hopen⟩

theorem contents?_waiting (data : Bytes) : (waiting h data).host.contents? .transparent 0
    ⟨⟨.v4 2, 1⟩, Host.enclosed data⟩ = some (Packet.decode data) := by
  obtain ⟨node, hn, -⟩ := exists_node_waiting hidle data
  exact Host.contents?_enclosed hn _ data

end Waiting

def peerKey : PublicKey := ⟨.replicate 32 2⟩

def met : Host := Host.attended.visit peerKey (.custom [1])

/-- A packet in the peer's name that the peer has not signed. -/
def forged : Packet where
  senderId := some peerKey.shortId
  message := some (.custom [2])
  signature := some []

theorem wellFormed_forged : forged.WellFormed where
  oneField := .inr rfl
  senderAgrees := nofun
  message := by rintro _ ⟨⟩; decide
  messages := nofun
  address := nofun
  priorityAddress := nofun
  signature := by rintro _ ⟨⟩; decide
  rand1 := by decide
  rand2 := by decide

theorem not_verify_forged (key : PublicKey) : forged.verify .transparent key ≠ .ok () := by
  have hsignature : ¬ ([] : Bytes) = key.bytes.toList ++ forged.unsigned.encode := by
    intro h
    have hlength := congrArg List.length h
    simp only [List.length_nil, List.length_append, Vector.length_toList] at hlength
    omega
  have hverify : KeyScheme.transparent.verify key forged.unsigned.encode [] =
      .error .invalidSignature := if_neg hsignature
  intro h
  simp only [Packet.verify, show forged.signature = some [] from rfl, hverify] at h
  cases h

def accosted (h : Host) : Passage where
  host := (waiting h forged.encode).host.serveOne .transparent 0 100
    ⟨⟨.v4 2, 1⟩, Host.enclosed forged.encode⟩
  place := .conversation 0 ⟨forged, ⟨.v4 2, 1⟩, false⟩

theorem strange_accosted {h : Host} (hidle : h.Idle 0 Host.doorKey.shortId)
    (hlive : h.live? 0 peerKey.shortId = some 0) : Strange .transparent (accosted h) := by
  have hcontents : (waiting h forged.encode).host.contents? .transparent 0
      ⟨⟨.v4 2, 1⟩, Host.enclosed forged.encode⟩ = some (.ok forged) := by
    rw [contents?_waiting hidle]
    exact congrArg some (Reader.whole_of_reads (Packet.reads wellFormed_forged))
  have hname : forged.senderName = some peerKey.shortId := rfl
  have hnamed : (waiting h forged.encode).host.named? 0 forged = some 0 := by
    rw [Host.named?, hname, Option.bind_some, ← Host.live?_settled, settled_waiting hidle,
      Host.live?_settled, hlive]
  have hunvouched : ¬ Vouched .transparent (waiting h forged.encode) := by
    rintro ⟨packet, key, hopened, -, hverify⟩
    rw [hcontents] at hopened
    obtain ⟨⟩ := hopened
    exact not_verify_forged key hverify
  have hforward : (waiting h forged.encode).forward .transparent ⟨0, 100⟩ = accosted h :=
    congrArg (Passage.mk (accosted h).host)
      (Host.recipient_eq_conversation.2 ⟨forged, hcontents, hnamed, rfl⟩)
  exact hforward ▸ (strange_waiting hidle (by decide +kernel)).goesOn hunvouched ⟨0, 100⟩

/-- The forged packet comes all the way to the conversation, and there it ends. -/
theorem stranger_disturbs_nobody_forged : Strange .transparent (accosted met) ∧
    ¬ (accosted met).Vouched .transparent ∧ ¬ (accosted met).Fatal .transparent ∧
      ((accosted met).forward .transparent ⟨0, 0⟩).host.settled =
        ((accosted met).aftermath .transparent ⟨0, 0⟩).settled := by
  obtain ⟨hidle, hlive⟩ : met.Idle 0 Host.doorKey.shortId ∧
      met.live? 0 peerKey.shortId = some 0 := by
    decide +kernel
  have hstrange := strange_accosted hidle hlive
  have hharmless : ¬ (accosted met).Fatal .transparent := not_fatal nofun
  exact ⟨hstrange, id, hharmless, (stranger_disturbs_nobody hstrange id ⟨0, 0⟩).1.2 hharmless⟩

end Passage

namespace Host

theorem findIdx?_ticket_modify {nodes : List Node} {f : Node → Node}
    (hf : ∀ node, (f node).ticket = node.ticket) (n ticket : Nat) :
    (nodes.modify n f).findIdx? (·.ticket = ticket) = nodes.findIdx? (·.ticket = ticket) := by
  have hmap (l : List Node) : l.findIdx? (·.ticket = ticket) =
      (l.map Node.ticket).findIdx? (· = ticket) := by
    rw [List.findIdx?_map]
    rfl
  rw [hmap, hmap, map_modify_of_eq hf]

theorem destination_modifyNode (h : Host) (n : Nat) {f : Node → Node}
    (hf : ∀ node, (f node).ticket = node.ticket) (now : Nat) (d : Datagram) :
    (h.modifyNode n f).destination now d = h.destination now d := by
  simp only [destination, modifyNode, findIdx?_ticket_modify hf]
  rfl

theorem destination_wake (h : Host) (a : Activity) (now : Nat) (d : Datagram) :
    (h.wake a).destination now d = h.destination now d := rfl

/-- Nobody goes through the queue of a node any more. -/
def Stopped (h : Host) (n : Nat) : Prop :=
  ∃ node, h.nodes[n]? = some node ∧ node.inbox.isOpen = false ∧ node.inbox.datagrams = []

theorem stopped_closeInbox {h : Host} {n : Nat} {node : Node} (hn : h.nodes[n]? = some node) :
    (h.closeInbox n).Stopped n := by
  refine ⟨{ node with inbox := node.inbox.close }, ?_, rfl, rfl⟩
  rw [closeInbox, modifyNode, getElem?_modify_of_some hn, if_pos rfl]

theorem conversations_serve_of_stopped {h : Host} {n : Nat} (hstopped : h.Stopped n)
    (K : KeyScheme) (date : Int32) : (h.serve K n date).conversations = h.conversations := by
  obtain ⟨node, hn, -, hempty⟩ := hstopped
  simp only [serve, hn, hempty]
  split_ifs <;> rfl

/-- Nothing that comes for a stopped node gets to a conversation. -/
theorem conversations_posted_of_stopped {h : Host} {n : Nat} {d d' : Datagram} (now : Moment)
    (hquiet : h.Quiet) (hstopped : h.Stopped n)
    (hdestination : h.destination now.elapsed d = .node n d') (K : KeyScheme) :
    (h.perform K (posted now n d)).conversations = h.conversations := by
  obtain ⟨node, hn, hclosed, hempty⟩ := hstopped
  have hrouted := routeDatagram_of_quiet hquiet hdestination
  have hlost : node.inbox.push d' = node.inbox := by simp [Inbox.push, hclosed]
  have hstill : (routeDatagram now.elapsed h d).Stopped n := by
    refine ⟨node, ?_, hclosed, hempty⟩
    simp only [hrouted, wake, emit, modifyNode, getElem?_modify_of_some hn, if_true, hlost]
  calc (h.perform K (posted now n d)).conversations
      = ((h.perform K [.arrive d, .run now .route]).serve K n now.date).conversations := rfl
    _ = (routeDatagram now.elapsed h d).conversations := by
      rw [perform_arrive_route hquiet, conversations_serve_of_stopped hstill]
    _ = h.conversations := by rw [hrouted]; rfl

end Host

namespace Passage

/-- What cannot be read: a packet whose first byte string has three bytes in the long form, and
nothing behind it. -/
def unreadable : Bytes := [0x89, 0xcd, 0x42, 0xd1, 0xfe, 0x03, 0, 0]

/-- Once the contents of an envelope could not be read, nothing that comes for the node gets to a
conversation. -/
theorem conversations_of_unreadable {h : Host} (hidle : h.Idle 0 Host.doorKey.shortId)
    {d d' : Datagram} (hd : h.destination 0 d = .node 0 d') (K : KeyScheme) :
    (((waiting h unreadable).host.closeInbox 0).perform K
      (Host.posted ⟨0, 100⟩ 0 d)).conversations = h.conversations := by
  obtain ⟨node, hn, -⟩ := exists_node_waiting hidle unreadable
  have hstopped := Host.stopped_closeInbox hn
  obtain ⟨f, hf, hhost⟩ : ∃ f : Node → Node, (∀ node, (f node).ticket = node.ticket) ∧
      (waiting h unreadable).host = (h.modifyNode 0 f).wake (.serve 0) := by
    exact ⟨fun node =>
      { node with inbox := node.inbox.push ⟨⟨.v4 2, 1⟩, Host.enclosed unreadable⟩ }, fun _ => rfl,
      Host.routeDatagram_of_quiet hidle.1 (destination_incoming hidle (by decide))⟩
  rw [hhost] at hstopped ⊢
  have hdestination :
      (((h.modifyNode 0 f).wake (.serve 0)).closeInbox 0).destination 0 d = .node 0 d' := by
    rw [Host.closeInbox, Host.destination_modifyNode _ _ (by exact fun _ => rfl),
      Host.destination_wake, Host.destination_modifyNode _ _ hf, hd]
  have hquiet : (((h.modifyNode 0 f).wake (.serve 0)).closeInbox 0).Quiet := hidle.1
  exact Host.conversations_posted_of_stopped ⟨0, 100⟩ hquiet hstopped hdestination K

/-- An envelope from nobody stops the node, and what the peer says next does not get to its
conversation. -/
theorem stranger_stops_node : ∃ w : Passage, Strange .transparent w ∧ ¬ w.Vouched .transparent ∧
    (w.forward .transparent ⟨0, 100⟩).host.settled ≠ (w.aftermath .transparent ⟨0, 100⟩).settled ∧
    w.host.settled = met.settled ∧
    (met.perform .transparent (Host.visiting peerKey (.custom [2]))).conversations.map
      (·.input.length) = [2] ∧
    ((w.forward .transparent ⟨0, 100⟩).host.perform .transparent
      (Host.visiting peerKey (.custom [2]))).conversations.map (·.input.length) = [1] := by
  obtain ⟨hidle, hheard, hmissed⟩ : met.Idle 0 Host.doorKey.shortId ∧
      (met.visit peerKey (.custom [2])).conversations.map (·.input.length) = [2] ∧
      met.conversations.map (·.input.length) = [1] := by
    decide +kernel
  have hcontents := contents?_waiting hidle unreadable
  rw [show Packet.decode unreadable = .error .outOfRange by decide] at hcontents
  have hstops := Host.stops_iff.2 hcontents
  obtain ⟨node, hn, hopen⟩ := exists_node_waiting hidle unreadable
  have hlength : (Packet.introducing peerKey (.custom [2])).encode.length < 10000 ∧
      (Packet.introducing peerKey (.custom [2])).unsigned.encode.length < 10000 := by
    decide +kernel
  refine ⟨waiting met unreadable, strange_waiting hidle (by decide), ?_, ?_,
    settled_waiting hidle unreadable, ?_, ?_⟩
  · rintro ⟨packet, key, hopened, -⟩
    rw [hcontents] at hopened
    cases hopened
  · intro hsettled
    exact (settled_serve .transparent ⟨0, 100⟩ _ 0 _).1 hsettled
      ⟨0, _, node, rfl, hstops, hn, hopen⟩
  · rw [Host.perform_visiting hidle (by decide) hlength, hheard]
  · have hstopped : ((waiting met unreadable).forward .transparent ⟨0, 100⟩).host =
        (waiting met unreadable).host.closeInbox 0 := host_forward_of_stops hstops ⟨0, 100⟩
    rw [hstopped, ← hmissed]
    exact congrArg _ (conversations_of_unreadable hidle (destination_incoming hidle hlength.1) _)

end Passage

end Adnl
