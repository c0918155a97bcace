import Adnl.Proofs.Codec.RoundTrip
import Adnl.Proofs.Conversation.Iterations
import Adnl.Proofs.Crypto.Sealing
import Adnl.Proofs.Dialogue.Genuine
import Adnl.Proofs.Host.Census

/-! # The way of a datagram

The router puts a datagram into the queue of whoever has the id in front of it. A node opens the
envelopes in its queue one after the other and puts the packets in them before its conversations; an
envelope whose contents cannot be read at all stops it.
-/
namespace Adnl

/-- How far a datagram has come. -/
inductive Place
  | socket (d : Datagram)
  | node (n : Nat) (d : Datagram)
  /-- In the queue of the channel that a conversation had registered under a ticket. -/
  | channel (i ticket : Nat) (d : Datagram)
  | conversation (i : Nat) (p : Incoming)
  | done

theorem List.modify_eq_self {α : Type} {l : List α} {i : Nat} {f : α → α}
    (h : ∀ a, l[i]? = some a → f a = a) : l.modify i f = l := by
  ext j : 1
  rw [List.getElem?_modify]
  split_ifs with hij
  · cases hj : l[j]? with
    | none => rfl
    | some a => exact congrArg some (h a (hij ▸ hj))
  · exact id_map _

namespace Host

/-- The queue that the router puts a datagram into. -/
def destination (h : Host) (now : Nat) (d : Datagram) : Place :=
  if (h.checkRate now d.source.ip).1 then
    let payload := d.payload.take maxDatagramLength
    match Bytes.toVector? idLength (payload.take idLength) with
    | none => .done
    | some id =>
      match h.routes.get? ⟨id⟩ with
      | none => .done
      | some r =>
        let d := { d with payload := payload.drop idLength }
        if h.listeners.any (·.ticket = r.ticket) then .done
        else
          match r.kind with
          | .localNode => (h.nodes.findIdx? (·.ticket = r.ticket)).elim .done (.node · d)
          | .channel =>
            (h.conversations.findIdx? (·.ticket? = some r.ticket)).elim .done
              (.channel · r.ticket d)
  else .done

/-- What a node reads in an envelope, if the envelope opens for it. -/
def contents? (K : KeyScheme) (h : Host) (n : Nat) (d : Datagram) :
    Option (Except Failure Packet) := do
  let node ← h.nodes[n]?
  let data ← (Envelope.unlockWith K node.own.seed d.payload).toOption
  return Packet.decode data

/-- An envelope whose contents cannot be read at all stops the node. -/
def stops (K : KeyScheme) (h : Host) (n : Nat) (d : Datagram) : Bool :=
  match h.contents? K n d with
  | some (.error .outOfRange) => true
  | _ => false

def present (h : Host) (n : Nat) (date : Int32) (p : Incoming) : Host :=
  match h.nodes[n]? with
  | none => h
  | some node => h.admitPacket n node date p

def serveOne (K : KeyScheme) (n : Nat) (date : Int32) (h : Host) (d : Datagram) : Host :=
  match h.contents? K n d with
  | some (.ok packet) => h.present n date ⟨packet, d.source, false⟩
  | some (.error .outOfRange) => h.closeInbox n
  | _ => h

variable {K : KeyScheme} {h : Host} {n : Nat} {d : Datagram}

/-- The router puts a datagram into the queue of its destination, and does nothing else than count
it and serve whoever listens without a node or a channel. -/
theorem routeDatagram_eq (now : Nat) (h : Host) (d : Datagram) :
    match h.destination now d with
    | .node n d' => routeDatagram now h d =
        ((h.checkRate now d.source.ip).2.modifyNode n fun node =>
          { node with inbox := node.inbox.push d' }).wake (.serve n)
    | .channel i _ d' => routeDatagram now h d = ({ (h.checkRate now d.source.ip).2 with
        conversations := h.conversations.modify i fun c =>
          { c with inbox := c.inbox.push d' } } : Host).wake (.converse i .unlock)
    | .done => ∃ limiter listeners, routeDatagram now h d = { h with limiter, listeners }
    | _ => False := by
  obtain ⟨allowed, limiter, hcheck⟩ : ∃ allowed limiter, h.checkRate now d.source.ip =
      (allowed, { h with limiter }) := ⟨_, _, rfl⟩
  simp only [destination, routeDatagram, hcheck]
  cases allowed with
  | false => exact ⟨limiter, h.listeners, rfl⟩
  | true =>
    simp only [sort, if_true]
    cases Bytes.toVector? idLength ((d.payload.take maxDatagramLength).take idLength) with
    | none => exact ⟨limiter, h.listeners, rfl⟩
    | some id =>
      dsimp only
      cases h.routes.get? ⟨id⟩ with
      | none => exact ⟨limiter, h.listeners, rfl⟩
      | some r =>
        dsimp only [queueFor]
        by_cases hl : h.listeners.any (·.ticket = r.ticket)
        · simp only [hl, if_true]
          exact ⟨limiter, _, rfl⟩
        · simp only [hl]
          cases r.kind with
          | localNode =>
            simp only [queueForNode]
            cases h.nodes.findIdx? (·.ticket = r.ticket) with
            | none => exact ⟨limiter, h.listeners, rfl⟩
            | some n => rfl
          | channel =>
            simp only [queueForChannel]
            cases h.conversations.findIdx? (·.ticket? = some r.ticket) with
            | none => exact ⟨limiter, h.listeners, rfl⟩
            | some i => rfl

/-- A datagram with an id in front comes to whoever has registered the id. -/
theorem destination_append {now : Nat} {source : Address} {id : ShortId} {r : Registration}
    {payload : Bytes} (hrate : (h.checkRate now source.ip).1) (hid : h.routes.get? id = some r)
    (hlisteners : h.listeners.any (·.ticket = r.ticket) = false)
    (hlength : idLength + payload.length ≤ maxDatagramLength) :
    h.destination now ⟨source, id.bytes.toList ++ payload⟩ = match r.kind with
      | .localNode =>
        (h.nodes.findIdx? (·.ticket = r.ticket)).elim .done (.node · ⟨source, payload⟩)
      | .channel =>
        (h.conversations.findIdx? (·.ticket? = some r.ticket)).elim .done
          (.channel · r.ticket ⟨source, payload⟩) := by
  have hall : (id.bytes.toList ++ payload).take maxDatagramLength = id.bytes.toList ++ payload := by
    refine List.take_of_length_le ?_
    rw [List.length_append, Vector.length_toList]
    exact hlength
  have htake : (id.bytes.toList ++ payload).take idLength = id.bytes.toList := by simp [idLength]
  have hdrop : (id.bytes.toList ++ payload).drop idLength = payload := by simp [idLength]
  have hvector : Bytes.toVector? idLength id.bytes.toList = some id.bytes :=
    Bytes.toVector?_toList id.bytes
  simp only [destination, hrate, hall, htake, hdrop, hvector, hid, hlisteners, if_true,
    Bool.false_eq_true, if_false]

theorem serveDatagram_eq (K : KeyScheme) (h : Host) (n : Nat) (date : Int32) (d : Datagram) :
    h.serveDatagram K n date d = match h.contents? K n d with
      | some (.ok packet) => (true, h.present n date ⟨packet, d.source, false⟩)
      | some (.error .outOfRange) => (false, h)
      | _ => (true, h) := by
  cases hn : h.nodes[n]? with
  | none => simp [serveDatagram, contents?, hn]
  | some node =>
    simp only [serveDatagram, contents?, present, hn, Option.bind_eq_bind, Option.bind_some,
      Option.pure_def]
    cases Envelope.unlockWith K node.own.seed d.payload with
    | error e => rfl
    | ok data =>
      simp only [Except.toOption, Option.bind_some]
      cases Packet.decode data with
      | error e => cases e <;> rfl
      | ok packet => rfl

theorem serveAll_cons (K : KeyScheme) (n : Nat) (date : Int32) (h : Host) (d : Datagram)
    (rest : List Datagram) : serveAll K n date h (d :: rest) =
      if h.stops K n d then h.serveOne K n date d
      else serveAll K n date (h.serveOne K n date d) rest := by
  rw [serveAll, serveDatagram_eq, serveOne, stops]
  cases h.contents? K n d with
  | none => rfl
  | some contents =>
    cases contents with
    | ok packet => rfl
    | error e => cases e <;> rfl

theorem contents?_of_decode {node : Node} {data : Bytes} (hnode : h.nodes[n]? = some node)
    (hdata : Envelope.unlockWith K node.own.seed d.payload = .ok data) :
    h.contents? K n d = some (Packet.decode data) := by
  simp only [contents?, hnode, Option.bind_eq_bind, Option.bind_some, hdata, Except.toOption,
    Option.pure_def]

/-- An envelope comes in and is routed and opened before anything else happens. -/
def posted (now : Moment) (n : Nat) (d : Datagram) : List Act :=
  [.arrive d, .run now .route, .run now (.serve n)]

/-- The host is up, lets everything through, and has nothing waiting. -/
def Quiet (h : Host) : Prop :=
  h.isClosed = false ∧ h.arrived = [] ∧ h.limiter.perSecond = 0 ∧ h.listeners = []

/-- A node can be reached under an id, and nothing waits. -/
def Idle (h : Host) (n : Nat) (id : ShortId) : Prop :=
  h.Quiet ∧ ∃ node ∈ h.nodes[n]?, node.isClosed = false ∧ node.inbox.isOpen = true ∧
    node.inbox.datagrams = [] ∧ 0 < node.inbox.capacity ∧
    h.routes.get? id = some ⟨.localNode, node.ticket⟩ ∧
    h.nodes.findIdx? (·.ticket = node.ticket) = some n

instance (h : Host) : Decidable h.Quiet := inferInstanceAs (Decidable (_ ∧ _))

instance (h : Host) (n : Nat) (id : ShortId) : Decidable (h.Idle n id) :=
  inferInstanceAs (Decidable (_ ∧ _))

theorem perform_arrive_route (hquiet : h.Quiet) (K : KeyScheme) (now : Moment) (d : Datagram) :
    h.perform K [.arrive d, .run now .route] = routeDatagram now.elapsed h d := by
  obtain ⟨hopen, harrived, -, -⟩ := hquiet
  have harrive : h.act K (.arrive d) = { h with arrived := [d] } := by
    rw [act, arrive, harrived]
    rfl
  have hroute : ({ h with arrived := [d] } : Host).route now.elapsed =
      routeDatagram now.elapsed { h with arrived := [] } d := if_neg (Bool.eq_false_iff.1 hopen)
  calc h.perform K [.arrive d, .run now .route] = (h.act K (.arrive d)).route now.elapsed := rfl
    _ = routeDatagram now.elapsed h d := by rw [harrive, hroute, ← harrived]

theorem checkRate_of_quiet (hquiet : h.Quiet) (now : Nat) (ip : Ip) :
    h.checkRate now ip = (true, h) := by
  simp [checkRate, Limiter.check, hquiet.2.2.1]

theorem routeDatagram_of_quiet (hquiet : h.Quiet) {now : Nat} {d' : Datagram}
    (hd : h.destination now d = .node n d') : routeDatagram now h d =
      (h.modifyNode n fun node => { node with inbox := node.inbox.push d' }).wake (.serve n) := by
  have hrouted := routeDatagram_eq now h d
  rw [hd, checkRate_of_quiet hquiet] at hrouted
  exact hrouted

theorem serve_singleton {node : Node} (hn : h.nodes[n]? = some node)
    (hopen : node.isClosed = false) (hempty : node.inbox.datagrams = [])
    (hpush : node.inbox.push d = { node.inbox with datagrams := [d] }) (K : KeyScheme)
    (date : Int32) : (h.modifyNode n fun node => { node with inbox := node.inbox.push d }).serve K n
      date = h.serveOne K n date d := by
  let waiting : Node := { node with inbox := { node.inbox with datagrams := [d] } }
  have hnodes : h.nodes.modify n (fun node => { node with inbox := node.inbox.push d }) =
      h.nodes.modify n fun _ => waiting := by
    ext j : 1
    rw [List.getElem?_modify, List.getElem?_modify]
    split_ifs with hj
    · subst hj
      rw [hn]
      exact congrArg (fun inbox => some { node with inbox }) hpush
    · rfl
  have hself : (h.nodes.modify n fun _ => waiting).modify n (fun node =>
      { node with inbox := { node.inbox with datagrams := [] } }) = h.nodes := by
    rw [List.modify_modify_eq]
    refine List.modify_eq_self fun node' hn' => ?_
    obtain rfl := Option.some.inj (hn.symm.trans hn')
    exact congrArg (fun datagrams => { node with inbox := { node.inbox with datagrams } }) hempty.symm
  have hfound : (h.nodes.modify n fun _ => waiting)[n]? = some waiting := by
    rw [getElem?_modify_of_some hn, if_pos rfl]
  have hserve : (h.modifyNode n fun node => { node with inbox := node.inbox.push d }).serve K n
      date = serveAll K n date h [d] := by
    simp only [serve, modifyNode, hnodes, hfound, hself]
    exact if_neg (Bool.eq_false_iff.1 hopen)
  rw [hserve, serveAll_cons]
  split_ifs <;> rfl

theorem destination_of_idle {id : ShortId} (hidle : h.Idle n id) (now : Nat) (source : Address)
    {payload : Bytes} (hlength : idLength + payload.length ≤ maxDatagramLength) :
    h.destination now ⟨source, id.bytes.toList ++ payload⟩ = .node n ⟨source, payload⟩ := by
  obtain ⟨hquiet, node, -, -, -, -, -, hid, hfirst⟩ := hidle
  rw [destination_append (by rw [checkRate_of_quiet hquiet]) hid (by rw [hquiet.2.2.2]; rfl) hlength,
    hfirst]
  rfl

/-- What comes to a node in an envelope is opened there as if it had not been on its way. -/
theorem perform_posted {id : ShortId} (hidle : h.Idle n id) (K : KeyScheme) (now : Moment)
    (source : Address) {payload : Bytes}
    (hlength : idLength + payload.length ≤ maxDatagramLength) :
    h.perform K (posted now n ⟨source, id.bytes.toList ++ payload⟩) =
      (h.wake (.serve n)).serveOne K n now.date ⟨source, payload⟩ := by
  have hdestination := destination_of_idle hidle now.elapsed source hlength
  obtain ⟨hquiet, node, hn, hnode, hinbox, hempty, hroom, -⟩ := hidle
  have hn : h.nodes[n]? = some node := hn
  let d : Datagram := ⟨source, id.bytes.toList ++ payload⟩
  have hroute := routeDatagram_of_quiet hquiet hdestination
  have hpush : node.inbox.push ⟨source, payload⟩ =
      { node.inbox with datagrams := [⟨source, payload⟩] } := by
    simp [Inbox.push, hinbox, hempty, hroom]
  calc h.perform K (posted now n d)
      = (h.perform K [.arrive d, .run now .route]).serve K n now.date := rfl
    _ = ((h.wake (.serve n)).modifyNode n fun node =>
          { node with inbox := node.inbox.push ⟨source, payload⟩ }).serve K n now.date := by
        rw [perform_arrive_route hquiet, hroute]
        rfl
    _ = (h.wake (.serve n)).serveOne K n now.date ⟨source, payload⟩ :=
        serve_singleton (h := h.wake (.serve n)) hn hnode hempty hpush K now.date

theorem perform_sealed {i : Nat} {id : ShortId} {ticket : Nat} (hquiet : h.Quiet)
    (hid : h.routes.get? id = some ⟨.channel, ticket⟩)
    (hfirst : h.conversations.findIdx? (·.ticket? = some ticket) = some i) (K : KeyScheme)
    (now : Moment) (source : Address) {payload : Bytes}
    (hlength : idLength + payload.length ≤ maxDatagramLength) :
    h.perform K [.arrive ⟨source, id.bytes.toList ++ payload⟩, .run now .route] =
      ({ h with conversations := h.conversations.modify i fun c =>
        { c with inbox := c.inbox.push ⟨source, payload⟩ } } : Host).wake
        (.converse i .unlock) := by
  have hcheck := checkRate_of_quiet hquiet now.elapsed source.ip
  have hdestination : h.destination now.elapsed ⟨source, id.bytes.toList ++ payload⟩ =
      .channel i ticket ⟨source, payload⟩ := by
    rw [destination_append (by rw [hcheck]) hid (by rw [hquiet.2.2.2]; rfl) hlength, hfirst]
    rfl
  have hrouted := routeDatagram_eq now.elapsed h ⟨source, id.bytes.toList ++ payload⟩
  rw [hdestination] at hrouted
  rw [perform_arrive_route hquiet, hrouted, hcheck]

/-- Data in an envelope that opens for everybody who agrees on keys transparently. -/
def enclosed (data : Bytes) : Bytes :=
  (Vector.replicate 32 5 : Bytes32).toList ++ Envelope.lock (.replicate 32 5) data

theorem length_enclosed (data : Bytes) : (enclosed data).length = 64 + data.length := by
  rw [enclosed, List.length_append, Vector.length_toList, Envelope.length_lock, ← Nat.add_assoc]
  rfl

theorem contents?_enclosed {node : Node} (hn : h.nodes[n]? = some node) (source : Address)
    (data : Bytes) :
    h.contents? .transparent n ⟨source, enclosed data⟩ = some (Packet.decode data) :=
  contents?_of_decode hn (Envelope.unlockWith_append rfl data)

/-- A packet in an envelope with the id of its receiver in front. -/
def letter (id : ShortId) (source : Address) (p : Packet) : Datagram :=
  ⟨source, id.bytes.toList ++ enclosed p.encode⟩

theorem perform_letter {id : ShortId} (hidle : h.Idle n id) (now : Moment) (source : Address)
    {p : Packet} (hp : p.WellFormed)
    (hlength : idLength + 64 + p.encode.length ≤ maxDatagramLength) :
    h.perform .transparent (posted now n (letter id source p)) =
      (h.wake (.serve n)).present n now.date ⟨p, source, false⟩ := by
  have ⟨node, hn, _⟩ := hidle.2
  have hdecode : Packet.decode p.encode = .ok p := Reader.whole_of_reads (Packet.reads hp)
  have hcontents := contents?_enclosed (h := h.wake (.serve n)) hn source p.encode
  rw [hdecode] at hcontents
  have hpayload : idLength + (enclosed p.encode).length ≤ maxDatagramLength := by
    rwa [length_enclosed, ← Nat.add_assoc]
  rw [letter, perform_posted hidle .transparent now source hpayload, serveOne, hcontents]

theorem act_receive {i steps : Nat} {K : KeyScheme} {now : Moment}
    (hrest : (h.conversations[i]?.all fun c =>
      ((Turn.receiveNext K now)^[steps] { conversation := c, routes := h.routes }).isAtRest) = true) :
    h.act K (.run now (.converse i .receive)) = h.turn i (Turn.receiveFor K now steps) := by
  change h.turn i (fun t => t.receive K now) = _
  rw [turn, turn]
  cases hc : h.conversations[i]? with
  | none => rfl
  | some c =>
    rw [hc, Option.all_some] at hrest
    simp only [Turn.receive_eq_receiveFor K now hrest]

end Host

/-- A packet with one message from somebody who says who they are. -/
def Packet.introducing (key : PublicKey) (m : Message) : Packet :=
  ({ sender := some key, message := some m } : Packet).sign .transparent key.bytes

theorem Packet.wellFormed_introducing {key : PublicKey} {m : Message}
    (hm : m.payload.length < Reader.lengthLimit)
    (hlength : 32 + (introducing key m).unsigned.encode.length < Reader.lengthLimit) :
    (introducing key m).WellFormed where
  oneField := .inr rfl
  senderAgrees := by rintro _ _ _ ⟨⟩
  message := by rintro _ ⟨⟩; exact hm
  messages := nofun
  address := nofun
  priorityAddress := nofun
  signature := by
    rintro _ ⟨⟩
    refine lt_of_eq_of_lt ?_ hlength
    exact (List.length_append).trans (congrArg (· + _) (Vector.length_toList))
  rand1 := Nat.two_pow_pos 24
  rand2 := Nat.two_pow_pos 24

namespace Host

def doorKey : PublicKey := ⟨.replicate 32 1⟩

def opening : Act := .addNode { seed := .replicate 32 1 } 100

/-- A host that lets everything through and remembers one announcement. -/
def forgetful : Host :=
  bind ⟨.v4 1, 1⟩ { announcementCapacity := 1, rateLimit := .disabled } (fun _ => .zeros) 0

def attended : Host := forgetful.act .transparent opening

def visiting (key : PublicKey) (m : Message) : List Act :=
  posted ⟨0, 100⟩ 0 (letter doorKey.shortId ⟨.v4 2, 1⟩ (.introducing key m))

def visit (h : Host) (key : PublicKey) (m : Message) : Host :=
  (h.wake (.serve 0)).present 0 100 ⟨.introducing key m, ⟨.v4 2, 1⟩, false⟩

theorem perform_visiting {h : Host} (hidle : h.Idle 0 doorKey.shortId) {key : PublicKey}
    {m : Message} (hm : m.payload.length < 1000)
    (hlength : (Packet.introducing key m).encode.length < 10000 ∧
      (Packet.introducing key m).unsigned.encode.length < 10000) :
    h.perform .transparent (visiting key m) = h.visit key m := by
  refine perform_letter hidle ⟨0, 100⟩ ⟨.v4 2, 1⟩ (Packet.wellFormed_introducing ?_ ?_) ?_
  · exact hm.trans (by decide)
  · exact Nat.lt_trans (Nat.add_lt_add_left hlength.2 32) (by decide)
  · exact (Nat.add_le_add_left hlength.1.le _).trans (by decide)

def tunnelling : List Act :=
  opening :: (visiting ⟨.replicate 32 2⟩ (.createChannel (.replicate 32 7) 100) ++
    [.run ⟨0, 100⟩ (.converse 0 .receive)])

def tunnelKeys : ChannelKeys :=
  .derive (.replicate 32 7) doorKey.shortId (⟨.replicate 32 2⟩ : PublicKey).shortId

def tunnelled : Host :=
  (attended.visit ⟨.replicate 32 2⟩ (.createChannel (.replicate 32 7) 100)).turn 0
    (Turn.receiveFor .transparent ⟨0, 100⟩ 2)

theorem perform_tunnelling : forgetful.perform .transparent tunnelling = tunnelled := by
  obtain ⟨hidle, hrest⟩ : attended.Idle 0 doorKey.shortId ∧
      ((attended.visit ⟨.replicate 32 2⟩
        (.createChannel (.replicate 32 7) 100)).conversations[0]?.all fun c =>
          ((Turn.receiveNext .transparent ⟨0, 100⟩)^[2] { conversation := c, routes :=
            (attended.visit ⟨.replicate 32 2⟩ (.createChannel (.replicate 32 7) 100)).routes
              }).isAtRest) = true := by
    decide +kernel
  change attended.perform .transparent _ = _
  rw [perform_append, perform_visiting hidle (by decide) (by decide +kernel),
    perform_singleton, act_receive hrest]
  rfl

theorem quiet_tunnelled : tunnelled.Quiet ∧ ∃ c ∈ tunnelled.conversations[0]?,
    ∃ channel ∈ c.pair.channel, channel.keys = tunnelKeys ∧ c.isDeaf = false ∧ c.input = [] ∧
      0 < c.config.queueCapacity ∧ c.inbox.isOpen = true ∧ c.inbox.datagrams = [] ∧
      0 < c.inbox.capacity ∧
      tunnelled.routes.get? tunnelKeys.inId = some ⟨.channel, channel.ticket⟩ ∧
      tunnelled.conversations.findIdx? (·.ticket? = some channel.ticket) = some 0 := by
  decide +kernel

end Host

end Adnl
