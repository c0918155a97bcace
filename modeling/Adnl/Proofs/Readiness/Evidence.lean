import Adnl.Proofs.Agreement.Contact
import Adnl.Proofs.Readiness.Gate

/-! # Readiness is earned

Whatever a peer sends, whatever the application and the rest of the host do, and however late the
relays of earlier channels still are: a channel is ready only if, since it was installed, a datagram
of its own inbound id has opened under its own key, or a confirmation of the own channel key has
come for its remote key.
-/
namespace Adnl

theorem Inbox.mem_of_mem_push {i : Inbox} {d d' : Datagram} (h : d' ∈ (i.push d).datagrams) :
    d' ∈ i.datagrams ∨ d' = d := by
  rw [push] at h
  split_ifs at h
  · exact (List.mem_append.1 h).imp_right List.mem_singleton.1
  · exact .inl h

namespace Turn

inductive Happening
  /-- A datagram arrives at the host, the receiver's id in front. -/
  | arrive (d : Datagram)
  | unlock
  /-- A packet arrives that was encrypted to the node. -/
  | deliver (packet : Packet) (source : Address)
  | receive (now : Moment)
  | send
  | transmit
  | lock
  | pursue (now : Nat) (id : Bytes32)
  | ask (query : Bytes) (timeout : Nat)
  | enqueue (m : Message)
  | close
  | list (l : AddressList)
  | register (id : ShortId) (kind : RouteKind)
  | release (id : ShortId) (ticket : Nat)

def arrive (t : Turn) (d : Datagram) : Turn :=
  match t.addressed? d.payload with
  | some (_, payload) => { t with conversation := { t.conversation with
      inbox := t.conversation.inbox.push { d with payload } } }
  | none => t

/-- The host sorts a datagram for the channel in the same way. -/
theorem conversation_sort {h : Host} {i : Nat} {v : Conversation} {d : Datagram} {c : Channel}
    {payload : Bytes} (hv : h.conversations[i]? = some v)
    (hfirst : ∀ j < i, ∀ v', h.conversations[j]? = some v' → v'.ticket? ≠ v.ticket?)
    (hlisteners : ∀ l ∈ h.listeners, l.ticket ≠ c.ticket)
    (hlength : d.payload.length ≤ Host.maxDatagramLength)
    (haddressed : ({ conversation := v, routes := h.routes } : Turn).addressed? d.payload =
      some (c, payload)) : (h.sort d).conversations[i]? =
        some (({ conversation := v, routes := h.routes } : Turn).arrive d).conversation := by
  rw [sort_of_addressed? hv hfirst hlisteners hlength haddressed, arrive, haddressed]
  simp only [Host.wake, Host.emit, List.getElem?_modify, hv, if_true]
  rfl

def prepareQuery (t : Turn) (query : Bytes) (timeout : Nat) : Turn :=
  let (id, supply) := t.conversation.pair.supply.drawFill
  { t with conversation := { t.conversation with
    pair := { t.conversation.pair with supply }
    queries := t.conversation.queries.add { id, query, timeout } } }

def act (K : KeyScheme) (t : Turn) : Happening → Turn
  | .arrive d => t.arrive d
  | .unlock => t.unlockNext
  | .deliver packet source =>
    { t with conversation := t.conversation.deliver ⟨packet, source, false⟩ }
  | .receive now => t.receiveNext K now
  | .send => t.send K
  | .transmit => t.transmit
  | .lock => t.lock
  | .pursue now id => t.pursue now id
  | .ask query timeout => t.prepareQuery query timeout
  | .enqueue m => (t.enqueue m).2
  | .close => t.close
  | .list l => t.become (t.conversation.pair.updateList l) t.routes
  | .register id kind =>
    match t.routes.register id kind with
    | .ok (_, routes) => { t with routes }
    | .error _ => t
  | .release id ticket => { t with routes := t.routes.release id ticket }

/-- A channel that was given up still opens a datagram. What it shows of readiness it shows of
itself. -/
def openLate (t : Turn) (c : Channel) (d : Datagram) : Turn × Channel :=
  match Envelope.unlock c.keys.decrypt d.payload with
  | .error _ => (t, c)
  | .ok data =>
    let c := { c with ready := true }
    match Packet.decode data with
    | .error _ => (t, c)
    | .ok packet => (if t.conversation.isDeaf then t else t.pass ⟨packet, d.source, true⟩, c)

/-- What a happening shows of the readiness of a channel. -/
def Shows (K : KeyScheme) (t : Turn) : Happening → Channel → Prop
  | .unlock => t.Opens
  | .receive _ => t.Confirms K
  | _ => fun _ => False

theorem next_act (K : KeyScheme) {t : Turn} (hfresh : t.gate.Fresh) (h : Happening)
    (harrive : ∀ d, h ≠ .arrive d) : t.gate.Next K (t.Shows K h) (t.act K h).gate := by
  have hsame (hgate : (t.act K h).gate = t.gate) :
      t.gate.Next K (t.Shows K h) (t.act K h).gate := by
    rw [hgate]
    exact .refl K _ t.gate
  cases h with
  | arrive d => exact absurd rfl (harrive d)
  | unlock => exact t.next_unlockNext K
  | receive now => exact t.next_receiveNext K hfresh now
  | list l =>
    refine t.next_become_of_dated K ?_
    rw [Pair.bond_updateList]
    exact .kept t.conversation.pair.peerReinitDate
  | register id kind =>
    simp only [act]
    split
    · next heq => exact .kept (List.Subset.refl _) (RouteTable.leads_register heq)
    · exact .refl K _ t.gate
  | release id ticket =>
    exact .kept (List.Subset.refl _) (t.routes.leads_release id ticket)
  | deliver packet source =>
    refine hsame ?_
    simp only [act, Conversation.deliver]
    split_ifs <;> rfl
  | send => exact hsame (t.gate_send K)
  | transmit => exact hsame rfl
  | lock => exact hsame t.gate_lock
  | pursue now id => exact hsame (t.gate_pursue now id)
  | ask query timeout => exact hsame rfl
  | enqueue m => exact hsame (t.gate_enqueue m)
  | close => exact hsame t.gate_close

theorem gate_openLate (t : Turn) (c : Channel) (d : Datagram) :
    (t.openLate c d).1.gate = t.gate := by
  rw [openLate]
  split
  · rfl
  · dsimp only
    split
    · rfl
    · simp only [pass]
      split_ifs <;> rfl

/-- What arrives for the channel has an id in front that is registered for it. -/
theorem gate_arrive (t : Turn) (d : Datagram) : ∃ datagrams,
    (t.arrive d).gate = ⟨t.gate.bond, datagrams, t.gate.routes⟩ ∧
      ∀ d' ∈ datagrams, d' ∈ t.gate.datagrams ∨ ∃ (c : Channel) (id : ShortId),
        t.gate.bond.channel = some c ∧ (id, ⟨.channel, c.ticket⟩) ∈ t.gate.routes.entries ∧
          d = { d' with payload := id.bytes.toList ++ d'.payload } := by
  rw [arrive]
  split
  · next c payload haddressed =>
    obtain ⟨hc, id, hpayload, hget⟩ := exists_of_addressed? haddressed
    refine ⟨_, rfl, fun d' hd' => ?_⟩
    obtain hold | rfl := Inbox.mem_of_mem_push hd'
    · exact .inl hold
    · refine .inr ⟨c, id, hc, RouteTable.mem_of_get? hget, ?_⟩
      rw [← hpayload]
  · exact ⟨_, rfl, fun _ => .inl⟩

theorem mem_of_opens? {t : Turn} {d : Datagram} (h : t.opens? = some d) :
    d ∈ t.conversation.inbox.datagrams := by
  rw [opens?] at h
  split_ifs at h
  exact List.mem_of_mem_head? h

end Turn

/-- A conversation, and the channels that it has given up. -/
structure Exposed where
  turn : Turn
  former : List Channel := []

namespace Exposed

inductive Move
  | happen (h : Turn.Happening)
  /-- A channel that was given up opens a datagram that had come in for it. -/
  | late (index : Nat) (d : Datagram)

def channel (e : Exposed) : Option Channel := e.turn.conversation.pair.channel

/-- Goes on with a turn, in which the channel may be given up. -/
def become (e : Exposed) (t : Turn) : Exposed where
  turn := t
  former :=
    if t.conversation.ticket? = e.turn.conversation.ticket? then e.former
    else e.former ++ e.channel.toList

def step (K : KeyScheme) (e : Exposed) : Move → Exposed
  | .happen h => e.become (e.turn.act K h)
  | .late index d =>
    match e.former[index]? with
    | some c =>
      let (turn, c) := e.turn.openLate c d
      ⟨turn, e.former.set index c⟩
    | none => e

def run (K : KeyScheme) (e : Exposed) (ms : List Move) : Exposed := ms.foldl (step K) e

def Shows (K : KeyScheme) (e : Exposed) : Move → Channel → Prop
  | .happen h => e.turn.Shows K h
  | .late .. => fun _ => False

theorem turn_run_replicate (K : KeyScheme) (e : Exposed) (h : Turn.Happening) (n : Nat) :
    (e.run K (List.replicate n (.happen h))).turn = (fun t => t.act K h)^[n] e.turn := by
  induction n generalizing e with
  | zero => rfl
  | succ n ih => exact ih (e.step K (.happen h))

theorem exists_run_eq_run (K : KeyScheme) (now : Moment) (e : Exposed) (task : Task) :
    ∃ ms, (e.turn.run K now task).conversation = (e.run K ms).turn.conversation ∧
      (e.turn.run K now task).routes = (e.run K ms).turn.routes := by
  cases task with
  | receive =>
    obtain ⟨n, hn⟩ := e.turn.exists_receiveAll_eq_receiveNext K now
    refine ⟨List.replicate n (.happen (.receive now)), ?_⟩
    rw [turn_run_replicate, Turn.run, Turn.receive]
    change _ = ((Turn.receiveNext K now)^[n] e.turn).conversation ∧
      _ = ((Turn.receiveNext K now)^[n] e.turn).routes
    rw [← hn]
    split_ifs <;> exact ⟨rfl, rfl⟩
  | unlock =>
    obtain ⟨n, hn⟩ := e.turn.exists_unlock_eq_unlockNext
    refine ⟨List.replicate n (.happen .unlock), ?_⟩
    rw [turn_run_replicate, Turn.run, hn]
    exact ⟨rfl, rfl⟩
  | send => exact ⟨[.happen .send], rfl, rfl⟩
  | transmit => exact ⟨[.happen .transmit], rfl, rfl⟩
  | lock => exact ⟨[.happen .lock], rfl, rfl⟩
  | pursue id => exact ⟨[.happen (.pursue now.elapsed id)], rfl, rfl⟩

def start (node : Nat) (config : Config) (own : LocalIdentity) (remote : Descriptor) (date : Int32)
    (supply : Supply) (routes : RouteTable) : Exposed where
  turn :=
    { conversation := .new node config (.new own remote config date supply)
      routes }

end Exposed

/-- A datagram with the inbound id in front. -/
def Channel.framed (c : Channel) (d : Datagram) : Datagram :=
  { d with payload := c.keys.inId.bytes.toList ++ d.payload }

namespace Exposed

section
variable (K : KeyScheme) (e : Exposed)

/-- From the moves `before` on, and in the course of the moves that follow, the channel is the one
with the given ticket. -/
def Stays (ticket : Nat) (before ms : List Move) : Prop :=
  ∀ ms', ms' <+: ms → (e.run K (before ++ ms')).turn.conversation.ticket? = some ticket

/-- The datagram has arrived at the inbound id of the channel, which has been there since. -/
def Arrived (c : Channel) (d : Datagram) (ms : List Move) : Prop :=
  ∃ earlier between, ms = earlier ++ .happen (.arrive (c.framed d)) :: between ∧
    Stays K e c.ticket earlier (.happen (.arrive (c.framed d)) :: between)

/-- The peer has shown that it holds the keys of the channel, which has been there since. The own
channel key is `key`. -/
inductive Earned (c : Channel) (key : Bytes32) : List Move → Prop
  /-- A confirmation of the own channel key was handled that came with the remote key. -/
  | confirmed {before after : List Move} {now : Moment} {date : Int32}
    (hkey : (e.run K before).turn.conversation.pair.channelKey K = key)
    (hhandles : (e.run K before).turn.handles? = some (.confirmChannel c.remoteKey key date))
    (hstays : Stays K e c.ticket (before ++ [.happen (.receive now)]) after) :
    Earned c key (before ++ .happen (.receive now) :: after)
  /-- A datagram that had arrived at the inbound id opened under the inward key. -/
  | opened {before after : List Move} {d : Datagram} {data : Bytes}
    (harrived : Arrived K e c d before)
    (hopens : (e.run K before).turn.opens? = some d)
    (hdata : Envelope.unlock c.keys.decrypt d.payload = .ok data)
    (hstays : Stays K e c.ticket (before ++ [.happen .unlock]) after) :
    Earned c key (before ++ .happen .unlock :: after)

end

variable {K : KeyScheme} {e : Exposed} {ms : List Move}

theorem run_snoc (ms : List Move) (m : Move) : e.run K (ms ++ [m]) = (e.run K ms).step K m :=
  List.foldl_append

theorem stays_nil {ticket : Nat}
    (h : (e.run K ms).turn.conversation.ticket? = some ticket) : Stays K e ticket ms [] := by
  intro ms' hms'
  rw [List.prefix_nil.1 hms', List.append_nil]
  exact h

theorem Earned.markReady {c : Channel} {key : Bytes32} (h : Earned K e c key ms) :
    Earned K e { c with ready := true } key ms := by
  cases h with
  | confirmed hkey hhandles hstays => exact .confirmed hkey hhandles hstays
  | opened harrived hopens hdata hstays => exact .opened harrived hopens hdata hstays

section
variable {c : Channel} {key : Bytes32} {m : Move}
  (hticket : (e.run K (ms ++ [m])).turn.conversation.ticket? = some c.ticket)
include hticket

theorem Stays.snoc {before since : List Move} (hms : before ++ since = ms)
    (h : Stays K e c.ticket before since) : Stays K e c.ticket before (since ++ [m]) := by
  intro ms' hms'
  obtain rfl | hprefix := List.prefix_concat_iff.1 hms'
  · rw [← List.append_assoc, hms]
    exact hticket
  · exact h ms' hprefix

theorem Arrived.snoc {d : Datagram} (h : Arrived K e c d ms) : Arrived K e c d (ms ++ [m]) := by
  obtain ⟨earlier, between, hms, hstays⟩ := h
  refine ⟨earlier, between ++ [m], ?_, hstays.snoc hticket hms.symm⟩
  rw [hms, List.append_assoc, List.cons_append]

theorem Earned.snoc (h : Earned K e c key ms) : Earned K e c key (ms ++ [m]) := by
  cases h with
  | @confirmed before after now date hkey hhandles hstays =>
    rw [List.append_assoc, List.cons_append]
    exact .confirmed hkey hhandles (hstays.snoc hticket (by simp))
  | @opened before after d data harrived hopens hdata hstays =>
    rw [List.append_assoc, List.cons_append]
    exact .opened harrived hopens hdata (hstays.snoc hticket (by simp))

end

/-- What holds of a channel that is installed after some moves. -/
structure Vouched (K : KeyScheme) (e : Exposed) (ms : List Move) (g : Gate) (c : Channel) :
    Prop where
  derived : c.Derived K g.bond
  entry : ∀ r ∈ g.routes.entries, r.2.ticket = c.ticket → r.1 = c.keys.inId
  arrived : ∀ d ∈ g.datagrams, Arrived K e c d ms
  earned : c.ready → Earned K e c (K.publicKey g.bond.channelSeed).bytes ms

structure Sound (K : KeyScheme) (e : Exposed) (ms : List Move) (g : Gate) : Prop where
  fresh : g.Fresh
  channel : ∀ c, g.bond.channel = some c → Vouched K e ms g c

variable {m : Move} {proof : Channel → Prop} {g g' : Gate}

/-- Entries that have gone or come in the meantime do not matter: a new one has a new ticket. -/
theorem Vouched.kept {c : Channel} (h : Vouched K e ms g c) (hfresh : c.ticket < g.routes.issued)
    (hticket : (e.run K (ms ++ [m])).turn.conversation.ticket? = some c.ticket)
    {date : Int32} {datagrams : List Datagram} {routes : RouteTable}
    (hdatagrams : ∀ d ∈ datagrams, d ∈ g.datagrams ∨ Arrived K e c d (ms ++ [m]))
    (hroutes : g.routes.Leads routes) :
    Vouched K e (ms ++ [m]) ⟨{ g.bond with date }, datagrams, routes⟩ c where
  derived := h.derived
  entry r hr hc := by
    obtain hold | ⟨hle, -⟩ := hroutes.mem r hr
    · exact h.entry r hold hc
    · exact absurd (hc ▸ hle) (Nat.not_le.2 hfresh)
  arrived d hd := (hdatagrams d hd).elim (fun hold => (h.arrived d hold).snoc hticket) id
  earned hready := (h.earned hready).snoc hticket

theorem Sound.next (h : Sound K e ms g) (hnext : g.Next K proof g')
    (hticket : ∀ c, g'.bond.channel = some c →
      (e.run K (ms ++ [m])).turn.conversation.ticket? = some c.ticket)
    (hproof : ∀ c, proof c →
      (e.run K (ms ++ [m])).turn.conversation.ticket? = some c.ticket →
      Earned K e c (K.publicKey g.bond.channelSeed).bytes (ms ++ [m])) :
    Sound K e (ms ++ [m]) g' := by
  refine ⟨h.fresh.next hnext, fun c hc => ?_⟩
  have hstays := hticket c hc
  cases hnext with
  | kept hdatagrams hroutes =>
    exact (h.channel c hc).kept (h.fresh.channel c hc) hstays (fun _ hd => .inl (hdatagrams hd))
      hroutes
  | @readied c' datagrams hold hc' hdatagrams =>
    obtain rfl := Option.some.inj hc
    have hkept : Vouched K e (ms ++ [m]) ⟨g.bond, datagrams, g.routes⟩ c' :=
      (h.channel c' hold).kept (h.fresh.channel c' hold) hstays
        (fun _ hd => .inl (hdatagrams hd)) (.refl _)
    exact ⟨hkept.derived, hkept.entry, hkept.arrived, fun _ => (hproof c' hc' hstays).markReady⟩
  | lost => cases hc
  | @installed c' routes hkeys hissued _ hentries hready =>
    obtain rfl := Option.some.inj hc
    refine ⟨hkeys, fun r hr hr' => ?_, fun d hd => ?_, fun hc => hproof c' (hready hc) hstays⟩
    · obtain hold | rfl := hentries r hr
      · -- The ticket of the new channel had not been given out.
        have hlt := h.fresh.entries r hold
        exact absurd (hr'.trans hissued) hlt.ne
      · rfl
    · cases hd

/-- What a happening shows is evidence, if the channel that is there afterwards is the one meant. -/
theorem Sound.earned_of_shows (h : Sound K e ms (e.run K ms).turn.gate) {m : Move} {c : Channel}
    (hshows : (e.run K ms).Shows K m c)
    (hticket : (e.run K (ms ++ [m])).turn.conversation.ticket? = some c.ticket) :
    Earned K e c ((e.run K ms).turn.conversation.pair.channelKey K) (ms ++ [m]) := by
  cases m with
  | late => cases hshows
  | happen hap =>
    cases hap with
    | unlock =>
      obtain ⟨d, data, hc, hopens, hdata⟩ := hshows
      have harrived := (h.channel c hc).arrived d (Turn.mem_of_opens? hopens)
      exact .opened harrived hopens hdata (stays_nil hticket)
    | receive now =>
      obtain ⟨date, hhandles⟩ := hshows
      exact .confirmed rfl hhandles (stays_nil hticket)
    | _ => cases hshows

theorem Sound.arrive (h : Sound K e ms (e.run K ms).turn.gate) (d : Datagram) :
    Sound K e (ms ++ [.happen (.arrive d)])
      (e.run K (ms ++ [.happen (.arrive d)])).turn.gate := by
  obtain ⟨datagrams, hgate, harrives⟩ := (e.run K ms).turn.gate_arrive d
  have hstep : (e.run K (ms ++ [.happen (.arrive d)])).turn.gate =
      ⟨(e.run K ms).turn.gate.bond, datagrams, (e.run K ms).turn.gate.routes⟩ := by
    rw [run_snoc]
    exact hgate
  have hticket (c : Channel) (hc : (e.run K ms).turn.gate.bond.channel = some c) :
      (e.run K (ms ++ [.happen (.arrive d)])).turn.conversation.ticket? = some c.ticket := by
    have hafter : (e.run K (ms ++ [.happen (.arrive d)])).turn.gate.bond.channel = some c := by
      rw [hstep]
      exact hc
    exact congrArg (Option.map Channel.ticket) hafter
  rw [hstep]
  refine ⟨⟨h.fresh.channel, h.fresh.entries⟩, fun c hc => ?_⟩
  have hvouched := h.channel c hc
  apply hvouched.kept (h.fresh.channel c hc) (hticket c hc) ?_ (.refl _)
  intro d' hd'
  obtain hold | ⟨c', id, hc', hentry, hd⟩ := harrives d' hd'
  · exact .inl hold
  · obtain rfl : c' = c := Option.some.inj (hc'.symm.trans hc)
    obtain rfl : id = c'.keys.inId := hvouched.entry _ hentry rfl
    have hsince : Stays K e c'.ticket ms [] := stays_nil (congrArg (Option.map Channel.ticket) hc)
    refine .inr ⟨ms, [], ?_, ?_⟩
    · rw [hd]
      rfl
    · have hframed : c'.framed d' = d := hd.symm
      rw [hframed]
      exact hsince.snoc (hticket c' hc) (List.append_nil ms)

theorem next_step (hfresh : e.turn.gate.Fresh) {m : Move}
    (harrive : ∀ d, m ≠ .happen (.arrive d)) :
    e.turn.gate.Next K (e.Shows K m) (e.step K m).turn.gate := by
  cases m with
  | late index d =>
    have hgate : (e.step K (.late index d)).turn.gate = e.turn.gate := by
      rw [step]
      split
      · exact Turn.gate_openLate _ _ _
      · rfl
    rw [hgate]
    exact .refl K _ _
  | happen h => exact Turn.next_act K hfresh h fun d hd => harrive d (hd ▸ rfl)

theorem Sound.step (h : Sound K e ms (e.run K ms).turn.gate) (m : Move) :
    Sound K e (ms ++ [m]) (e.run K (ms ++ [m])).turn.gate := by
  by_cases harrive : ∃ d, m = .happen (.arrive d)
  · obtain ⟨d, rfl⟩ := harrive
    exact h.arrive d
  · have hnext := next_step (K := K) h.fresh fun d hd => harrive ⟨d, hd⟩
    rw [← run_snoc] at hnext
    exact h.next hnext (fun c hc => congrArg (Option.map Channel.ticket) hc)
      fun c => h.earned_of_shows

theorem sound_run (hfresh : e.turn.gate.Fresh) (hnone : e.channel = none) (ms : List Move) :
    Sound K e ms (e.run K ms).turn.gate := by
  induction ms using List.reverseRecOn with
  | nil => exact ⟨hfresh, fun c hc => by cases hnone.symm.trans hc⟩
  | append_singleton ms m ih => exact ih.step m

/-- No move makes a channel ready but one that shows that it is. -/
theorem Sound.shows_of_ready (h : Sound K e ms (e.run K ms).turn.gate) {m : Move} {c : Channel}
    (hc : (e.run K (ms ++ [m])).channel = some c) (hready : c.ready) :
    (e.run K ms).channel = some c ∨ ∃ ready, (e.run K ms).Shows K m { c with ready } := by
  by_cases harrive : ∃ d, m = .happen (.arrive d)
  · obtain ⟨d, rfl⟩ := harrive
    have hchannel : (e.run K (ms ++ [.happen (.arrive d)])).channel = (e.run K ms).channel := by
      rw [run_snoc]
      change ((e.run K ms).turn.arrive d).conversation.pair.channel = _
      rw [Turn.arrive]
      split <;> rfl
    exact .inl (hchannel ▸ hc)
  · have hnext := next_step (K := K) h.fresh fun d hd => harrive ⟨d, hd⟩
    rw [← run_snoc] at hnext
    exact hnext.proof_of_ready hc hready

/-- In every run the keys of an installed channel come from the own channel key and the remote key,
and the channel is ready only if that was earned since it was installed. A move that makes it ready
opens a datagram with its key or handles a confirmation of both channel keys. -/
theorem ready_is_earned (K : KeyScheme) (node : Nat) (config : Config) (own : LocalIdentity)
    (remote : Descriptor) (date : Int32) (supply : Supply) {routes : RouteTable}
    (hroutes : ∀ r ∈ routes.entries, r.2.ticket < routes.issued) {e : Exposed}
    (he : start node config own remote date supply routes = e) (ms : List Move) :
    (∀ c, (e.run K ms).channel = some c →
      c.Derived K (e.run K ms).turn.conversation.pair.bond ∧
      (c.ready → Earned K e c ((e.run K ms).turn.conversation.pair.channelKey K) ms)) ∧
    ∀ m c, (e.run K (ms ++ [m])).channel = some c → c.ready →
      (e.run K ms).channel = some c ∨ ∃ ready, (e.run K ms).Shows K m { c with ready } := by
  subst he
  have hsound := sound_run (K := K) (e := start node config own remote date supply routes)
    ⟨by rintro _ ⟨⟩, hroutes⟩ rfl ms
  refine ⟨fun c hc => ?_, fun m c hc hready => ?_⟩
  · have hvouched := hsound.channel c hc
    exact ⟨hvouched.derived, hvouched.earned⟩
  · exact hsound.shows_of_ready hc hready

/-- What is ready after a whole turn of a task has been earned in a series of moves that comes to
the same. -/
theorem earned_after_run (hfresh : e.turn.gate.Fresh) (hnone : e.channel = none) (ms : List Move)
    (now : Moment) (task : Task) {t : Turn} (ht : (e.run K ms).turn.run K now task = t) {c : Channel}
    (hc : t.conversation.pair.channel = some c) (hready : c.ready) :
    ∃ ms', (e.run K (ms ++ ms')).turn.conversation = t.conversation ∧
      Earned K e c (t.conversation.pair.channelKey K) (ms ++ ms') := by
  subst ht
  obtain ⟨ms', hconversation, -⟩ := exists_run_eq_run K now (e.run K ms) task
  have hrun : (e.run K ms).run K ms' = e.run K (ms ++ ms') := List.foldl_append.symm
  rw [hrun] at hconversation
  rw [hconversation] at hc ⊢
  exact ⟨ms', rfl, ((sound_run hfresh hnone (ms ++ ms')).channel c hc).earned hready⟩

/-- The left end says something and takes in what the right end has answered in the greeting. -/
theorem ready_is_earned_greeting :
    ∃ (e : Exposed) (c : Channel) (key : Bytes32) (ms : List Move),
      (e.run Contact.xorScheme ms).channel = some c ∧ c.ready ∧
        Earned Contact.xorScheme e c key ms := by
  let ms : List Move := [.happen (.enqueue (.custom [1])), .happen .send] ++
    ((Contact.greeting .right).letters.map fun l => .happen (.deliver l.packet ⟨.v4 0, 0⟩)) ++
    [.happen (.receive ⟨0, 100⟩), .happen (.receive ⟨0, 100⟩)]
  let e := start 0 {} (Contact.caller .left).own
    ⟨(Contact.caller .right).own.key Contact.xorScheme, {}⟩ 100 (Contact.caller .left).supply {}
  have hrun : (e.run Contact.xorScheme ms).channel.any Channel.ready = true := by decide +kernel
  obtain ⟨c, hc, hready⟩ := (Option.any_eq_true _ _).1 hrun
  obtain ⟨hchannel, -⟩ := ready_is_earned Contact.xorScheme 0 {} (Contact.caller .left).own
    ⟨(Contact.caller .right).own.key Contact.xorScheme, {}⟩ 100 (Contact.caller .left).supply
    (by rintro _ ⟨⟩) (e := e) rfl ms
  exact ⟨e, c, _, ms, hc, hready, (hchannel c hc).2 hready⟩

end Exposed

end Adnl
