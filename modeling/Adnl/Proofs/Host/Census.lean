import Adnl.Host.Run
import Adnl.Proofs.Conversation.Standing

/-! # What happens on a host

The nodes, the conversations and the routing table of a host change in few ways, whatever happens:
a conversation gets on with its turn, begins or is forgotten, a node comes or goes, and the
application takes notice of announcements. Every act is a series of such changes.
-/
namespace Adnl

section
variable {α β : Type} {l : List α} {i : Nat} {f : α → β}

theorem map_set_of_eq {a b : α} (ha : l[i]? = some a) (hb : f b = f a) :
    (l.set i b).map f = l.map f := by
  obtain ⟨hi, hget⟩ := List.getElem?_eq_some_iff.1 ha
  ext j : 1
  by_cases hj : i = j
  · subst hj
    simp [hi, hb, hget]
  · simp [hj]

theorem map_modify_of_comm {g : α → α} {g' : β → β} (hg : ∀ a, f (g a) = g' (f a)) :
    (l.modify i g).map f = (l.map f).modify i g' := by
  ext j : 1
  by_cases hj : i = j
  · subst hj
    simp [hg, Function.comp_def]
  · simp [hj]

theorem map_modify_of_eq {g : α → α} (hg : ∀ a, f (g a) = f a) :
    (l.modify i g).map f = l.map f := by
  ext j : 1
  by_cases hj : i = j
  · subst hj
    simp [hg, Function.comp_def]
  · simp [hj]

theorem getElem?_modify_of_some {a : α} (h : l[i]? = some a) (j : Nat) (g : α → α) :
    (l.modify j g)[i]? = some (if j = i then g a else a) := by
  rw [List.getElem?_modify, h]
  rfl

theorem getElem?_modify_eq_some {a : α} {j : Nat} {g : α → α}
    (h : (l.modify j g)[i]? = some a) : ∃ b, l[i]? = some b ∧ (if j = i then g b else b) = a := by
  rw [List.getElem?_modify] at h
  exact Option.map_eq_some_iff.1 h

theorem mem_modify {a : α} {g : α → α} (h : a ∈ l.modify i g) :
    a ∈ l ∨ ∃ b, l[i]? = some b ∧ a = g b := by
  obtain ⟨j, hj⟩ := List.mem_iff_getElem?.1 h
  obtain ⟨b, hb, rfl⟩ := getElem?_modify_eq_some hj
  split_ifs with hij
  · exact .inr ⟨b, hij ▸ hb, rfl⟩
  · exact .inl (List.mem_of_getElem? hb)

theorem getElem?_concat_eq_some {a b : α} (h : (l ++ [a])[i]? = some b) :
    l[i]? = some b ∨ i = l.length ∧ a = b := by
  by_cases hlt : i < l.length
  · rw [List.getElem?_append_left hlt] at h
    exact .inl h
  · rw [List.getElem?_append_right (Nat.le_of_not_lt hlt), List.getElem?_singleton] at h
    obtain ⟨hi, h⟩ := Option.ite_none_right_eq_some.1 h
    exact .inr ⟨by omega, Option.some.inj h⟩

end

/-! ## What is counted -/

/-- What the rest of the host sees of a node. -/
structure Seat where
  id : ShortId
  ticket : Nat
  isDropped : Bool := false
  peers : List (ShortId × Nat) := []
  announced : Backlog Nat

def Node.seat (n : Node) : Seat := ⟨n.id, n.ticket, n.isDropped, n.peers, n.announced⟩

namespace Seat

variable (seat : Seat)

/-- A conversation takes the place of an earlier one with the same identity. -/
def enter (remote : ShortId) (i : Nat) : Seat :=
  { seat with peers := (remote, i) :: seat.peers.filter (·.1 ≠ remote) }

def forget (remote : ShortId) (i : Nat) : Seat :=
  { seat with peers := seat.peers.filter fun e => !(e.1 = remote && e.2 = i) }

def announce (i : Nat) : Seat := { seat with announced := seat.announced.push i }

def look : Seat := { seat with announced := seat.announced.clear }

def drop : Seat := { seat with isDropped := true }

end Seat

structure Census where
  routes : RouteTable
  seats : List Seat
  standings : List Standing
  capacity : Nat

def Host.census (h : Host) : Census :=
  ⟨h.routes, h.nodes.map Node.seat, h.conversations.map Conversation.standing,
    h.config.announcementCapacity⟩

/-- What only some acts do. -/
inductive Special
  /-- A conversation may begin that is not announced. -/
  | seek
  /-- Conversations may begin that are announced. -/
  | meet
  | look (n : Nat)
  /-- An id is claimed or given free without a node or a channel behind it. -/
  | listen
  /-- A conversation goes on although it has been closed. -/
  | late
deriving DecidableEq

namespace Census

/-- One change in the course of an act. -/
inductive Change (s : Option Special) (c : Census) : Census → Prop
  | turned {i : Nat} {standing : Standing} {isOver : Bool} {o : Outlook}
    (hi : c.standings[i]? = some standing)
    (hnext : Outlook.Next (s = some .late) ⟨standing, c.routes, isOver⟩ o) :
    Change s c { c with routes := o.routes, standings := c.standings.set i o.standing }
  | forgot {i : Nat} {standing : Standing} (hi : c.standings[i]? = some standing)
    (hover : standing.Over) :
    Change s c { c with
      seats := c.seats.modify standing.parties.node (·.forget standing.parties.peer.shortId i) }
  | began {n : Nat} {seat : Seat} (hs : s = some .seek ∨ s = some .meet) (own : LocalIdentity)
    (peer : PublicKey) (hn : c.seats[n]? = some seat)
    (hlast : ∀ i standing, seat.peers.lookup peer.shortId = some i →
      c.standings[i]? = some standing → standing.isClosed = true) :
    Change s c { c with
      standings := c.standings ++ [{ parties := ⟨n, own, peer⟩ }]
      seats := c.seats.modify n fun seat =>
        let seat := seat.enter peer.shortId c.standings.length
        if s = some .seek then seat else seat.announce c.standings.length }
  | added {id : ShortId} {ticket : Nat} {routes : RouteTable}
    (hregister : c.routes.register id .localNode = .ok (ticket, routes)) :
    Change s c { c with
      routes
      seats := c.seats ++ [{ id, ticket, announced := .ofCapacity c.capacity }] }
  | dropped {n : Nat} {seat : Seat} (hn : c.seats[n]? = some seat) :
    Change s c { c with
      routes := c.routes.release seat.id seat.ticket
      seats := c.seats.modify n Seat.drop }
  | looked {n : Nat} (hs : s = some (.look n)) :
    Change s c { c with seats := c.seats.modify n Seat.look }
  | listened {id : ShortId} {kind : RouteKind} {ticket : Nat} {routes : RouteTable}
    (hs : s = some .listen) (hregister : c.routes.register id kind = .ok (ticket, routes)) :
    Change s c { c with routes }
  | unlistened (hs : s = some .listen) (id : ShortId) (ticket : Nat) :
    Change s c { c with routes := c.routes.release id ticket }

def Changes (s : Option Special) : Census → Census → Prop := Relation.ReflTransGen (Change s)

variable {s : Option Special}

theorem Changes.preserves {P : Census → Prop} (hP : ∀ c c', c.Change s c' → P c → P c')
    {c c' : Census} (h : c.Changes s c') (hc : P c) : P c' := by
  induction h with
  | refl => exact hc
  | tail _ hlast ih => exact hP _ _ hlast ih

/-- What no turn takes away from a conversation stays, whatever happens. -/
theorem Change.stays {P : Standing → Prop}
    (hP : ∀ o o' : Outlook, o.Next (s = some .late) o' → P o.standing → P o'.standing)
    {c c' : Census} (h : c.Change s c') {i : Nat} {standing : Standing} (hi : c.standings[i]? = some standing)
    (hstanding : P standing) : ∃ standing', c'.standings[i]? = some standing' ∧ P standing' := by
  have hlt := (List.getElem?_eq_some_iff.1 hi).1
  cases h with
  | @turned j standing' isOver o hj hnext =>
    by_cases hij : j = i
    · subst hij
      obtain rfl := Option.some.inj (hi.symm.trans hj)
      exact ⟨_, List.getElem?_set_self hlt, hP _ _ hnext hstanding⟩
    · exact ⟨standing, (List.getElem?_set_ne hij).trans hi, hstanding⟩
  | began => exact ⟨standing, (List.getElem?_append_left hlt).trans hi, hstanding⟩
  | _ => exact ⟨standing, hi, hstanding⟩

theorem changes_of_nexts {c : Census} {i : Nat} {o o' : Outlook}
    (hi : c.standings[i]? = some o.standing) (hroutes : o.routes = c.routes)
    (hnext : Relation.ReflTransGen (Outlook.Next (s = some .late)) o o') :
    Changes s c { c with routes := o'.routes, standings := c.standings.set i o'.standing } := by
  have hlt := (List.getElem?_eq_some_iff.1 hi).1
  induction hnext with
  | refl =>
    have hself : c.standings.set i o.standing = c.standings := by
      obtain ⟨_, hget⟩ := List.getElem?_eq_some_iff.1 hi
      rw [← hget, List.set_getElem_self]
    rw [hroutes, hself]
    exact .refl
  | @tail o₁ o₂ _ hlast ih =>
    have hchange := Change.turned (s := s)
      (c := { c with routes := o₁.routes, standings := c.standings.set i o₁.standing })
      (List.getElem?_set_self hlt) hlast
    rw [List.set_set] at hchange
    exact ih.tail hchange

end Census

namespace Host

variable {s : Option Special} {h h' : Host} {i : Nat} {c c' : Conversation}

/-- What is counted on a host changes step by step. -/
def Becomes (s : Option Special) (h h' : Host) : Prop := Census.Changes s h.census h'.census

theorem becomes_of_eq (e : h'.census = h.census) : h.Becomes s h' := by
  rw [Becomes, e]
  exact .refl

theorem Becomes.refl (h : Host) : h.Becomes s h := becomes_of_eq rfl

theorem Becomes.trans {h'' : Host} (hb : h.Becomes s h') (hb' : h'.Becomes s h'') :
    h.Becomes s h'' := Relation.ReflTransGen.trans hb hb'

theorem becomes_foldl {α : Type} {f : Host → α → Host} (hf : ∀ (h : Host) a, h.Becomes s (f h a))
    (l : List α) (h : Host) : h.Becomes s (l.foldl f h) := by
  induction l generalizing h with
  | nil => exact .refl h
  | cons a l ih => exact (hf h a).trans (ih (f h a))

theorem standings_census (hc : h.conversations[i]? = some c) :
    h.census.standings[i]? = some c.standing := by
  simp [census, hc]

theorem seats_census {n : Nat} {node : Node} (hn : h.nodes[n]? = some node) :
    h.census.seats[n]? = some node.seat := by
  simp [census, hn]

theorem exists_of_standings_census {standing : Standing}
    (hi : h.census.standings[i]? = some standing) :
    ∃ c, h.conversations[i]? = some c ∧ c.standing = standing := by
  rw [census, List.getElem?_map] at hi
  exact Option.map_eq_some_iff.1 hi

theorem exists_of_seats_census {n : Nat} {seat : Seat} (hn : h.census.seats[n]? = some seat) :
    ∃ node, h.nodes[n]? = some node ∧ node.seat = seat := by
  rw [census, List.getElem?_map] at hn
  exact Option.map_eq_some_iff.1 hn

theorem census_modifyNode (h : Host) (n : Nat) {f : Node → Node}
    (hf : ∀ node, (f node).seat = node.seat) : (h.modifyNode n f).census = h.census := by
  simp only [census, modifyNode, map_modify_of_eq hf]

theorem census_set (h : Host) (i : Nat) (c' : Conversation) :
    ({ h with conversations := h.conversations.set i c' } : Host).census =
      { h.census with standings := h.census.standings.set i c'.standing } := by
  simp only [census, List.map_set]

theorem census_set_of_eq (hc : h.conversations[i]? = some c) (hs : c'.standing = c.standing) :
    ({ h with conversations := h.conversations.set i c' } : Host).census = h.census := by
  simp only [census, map_set_of_eq hc hs]

theorem census_queueFor (h : Host) (r : Registration) (d : Datagram) :
    (h.queueFor r d).census = h.census := by
  rw [queueFor]
  split_ifs
  · rfl
  · split
    · rw [queueForNode]
      split
      · rfl
      · exact h.census_modifyNode _ fun _ => rfl
    · rw [queueForChannel]
      split
      · rfl
      · exact congrArg (Census.mk h.routes _ · _) (map_modify_of_eq fun _ => rfl)

theorem census_sort (h : Host) (d : Datagram) : (h.sort d).census = h.census := by
  simp only [sort]
  split
  · rfl
  · split
    · rfl
    · exact h.census_queueFor _ _

theorem census_routeDatagram (now : Nat) (h : Host) (d : Datagram) :
    (routeDatagram now h d).census = h.census := by
  have hcheck : (h.checkRate now d.source.ip).2.census = h.census := rfl
  rw [routeDatagram]
  split
  · next heq =>
    rw [heq] at hcheck
    exact (census_sort _ d).trans hcheck
  · next heq =>
    rw [heq] at hcheck
    exact hcheck

theorem census_route (h : Host) (now : Nat) : (h.route now).census = h.census := by
  have hfold (ds : List Datagram) (h : Host) :
      (ds.foldl (routeDatagram now) h).census = h.census := by
    induction ds generalizing h with
    | nil => rfl
    | cons d ds ih => exact (ih _).trans (census_routeDatagram now h d)
  rw [route]
  split_ifs
  · rfl
  · exact hfold _ _

theorem becomes_deliver (hc : h.conversations[i]? = some c) (hopen : c.isClosed = false)
    (p : Incoming) : h.Becomes s (h.deliver i p) := by
  have hset : h.Becomes s { h with conversations := h.conversations.set i (c.deliver p) } := by
    rw [Conversation.deliver]
    split_ifs
    · have hnext : Outlook.Next (s = some .late) ⟨c.standing, h.routes, false⟩ _ := .passed p hopen
      have hchange := Census.Change.turned (s := s) (c := h.census) (standings_census hc) hnext
      refine .single ?_
      rw [census_set]
      exact hchange
    · exact becomes_of_eq (census_set_of_eq hc rfl)
  simp only [deliver, hc]
  split_ifs
  · exact hset
  · exact hset

theorem exists_open_of_live? {n : Nat} {remote : ShortId} (hlive : h.live? n remote = some i) :
    ∃ node c, h.nodes[n]? = some node ∧ node.peers.lookup remote = some i ∧
      h.conversations[i]? = some c ∧ c.isClosed = false := by
  simp only [live?, Option.bind_eq_bind, Option.bind_eq_some_iff] at hlive
  obtain ⟨node, hnode, j, hj, c, hc, hi⟩ := hlive
  split_ifs at hi with hclosed
  obtain rfl := Option.some.inj hi
  exact ⟨node, c, hnode, hj, hc, Bool.eq_false_iff.2 hclosed⟩

theorem isClosed_of_live?_eq_none {n : Nat} {node : Node} {remote : ShortId}
    (hn : h.nodes[n]? = some node) (hlive : h.live? n remote = none)
    (hi : node.peers.lookup remote = some i) (hc : h.conversations[i]? = some c) :
    c.isClosed = true := by
  simp only [live?, hn, hi, hc, Option.bind_eq_bind, Option.bind_some] at hlive
  by_contra hopen
  simp [hopen] at hlive

theorem census_start (h : Host) (n : Nat) (node : Node) (remote : Descriptor) (date : Int32) :
    (h.start n node remote date).2.census =
      { h.census with
        standings := h.census.standings ++ [{ parties := ⟨n, node.own, remote.key⟩ }]
        seats := h.census.seats.modify n
          (·.enter remote.key.shortId h.census.standings.length) } := by
  simp only [start, census, modifyNode, wake, emit, List.map_append, List.length_map]
  exact congrArg (Census.mk h.routes · _ _) (map_modify_of_comm fun _ => rfl)

theorem length_standings (h : Host) : h.census.standings.length = h.conversations.length :=
  List.length_map _

theorem census_announce (h : Host) (n i : Nat) : (h.announce n i).census =
    { h.census with seats := h.census.seats.modify n (·.announce i) } :=
  congrArg (Census.mk h.routes · _ _) (map_modify_of_comm fun _ => rfl)

section
variable {n : Nat} {node : Node} (hn : h.nodes[n]? = some node)
include hn

theorem isClosed_of_lookup {remote : ShortId} (hlive : h.live? n remote = none) :
    ∀ i standing, node.seat.peers.lookup remote = some i →
      h.census.standings[i]? = some standing → standing.isClosed = true := by
  intro i standing hi hstanding
  obtain ⟨c, hc, rfl⟩ := exists_of_standings_census hstanding
  exact isClosed_of_live?_eq_none hn hlive hi hc

/-- A conversation that the application asks for is not announced. -/
theorem becomes_start {own : Node} {remote : Descriptor}
    (hlive : h.live? n remote.key.shortId = none) (date : Int32) :
    h.Becomes (some .seek) (h.start n own remote date).2 := by
  have hchange := Census.Change.began (.inl rfl) own.own remote.key (seats_census hn)
    (isClosed_of_lookup hn hlive)
  simp only [if_true] at hchange
  refine .single ?_
  rw [census_start]
  exact hchange

theorem becomes_announce {own : Node} (remote : Descriptor)
    (hlive : h.live? n remote.key.shortId = none) (date : Int32) :
    h.Becomes (some .meet) ((h.start n own remote date).2.announce n h.conversations.length) := by
  have hchange := Census.Change.began (.inr rfl) own.own remote.key (seats_census hn)
    (isClosed_of_lookup hn hlive)
  simp only [Option.some.injEq, reduceCtorEq, if_false] at hchange
  refine .single ?_
  rw [census_announce, census_start, List.modify_modify_eq, ← h.length_standings]
  exact hchange

end

theorem senderName_of_sender {p : Packet} {key : PublicKey} (h : p.sender = some key) :
    p.senderName = some key.shortId := by
  rw [Packet.senderName, h]

theorem becomes_admitPacket {n : Nat} {node : Node} (hn : h.nodes[n]? = some node) (date : Int32)
    (p : Incoming) : h.Becomes (some .meet) (h.admitPacket n node date p) := by
  rw [admitPacket]
  split
  · exact .refl h
  · next remote hremote =>
    split
    · next i hlive =>
      obtain ⟨_, c, -, -, hc, hopen⟩ := exists_open_of_live? hlive
      exact becomes_deliver hc hopen p
    · next hlive =>
      split
      · exact .refl h
      · next key hsender =>
        obtain rfl : key.shortId = remote :=
          Option.some.inj ((senderName_of_sender hsender).symm.trans hremote)
        exact (becomes_announce hn ⟨key, {}⟩ hlive date).trans
          (becomes_deliver List.getElem?_concat_length rfl p)

theorem becomes_serveDatagram (K : KeyScheme) (h : Host) (n : Nat) (date : Int32) (d : Datagram) :
    h.Becomes (some .meet) (h.serveDatagram K n date d).2 := by
  rw [serveDatagram]
  split
  · exact .refl h
  · next node hn =>
    split
    · exact .refl h
    · split
      · exact .refl h
      · exact .refl h
      · exact becomes_admitPacket hn date _

theorem becomes_serveAll (K : KeyScheme) (n : Nat) (date : Int32) (h : Host) (ds : List Datagram) :
    h.Becomes (some .meet) (serveAll K n date h ds) := by
  induction ds generalizing h with
  | nil => exact .refl h
  | cons d rest ih =>
    have hd := h.becomes_serveDatagram K n date d
    rw [serveAll]
    split
    · next heq =>
      rw [heq] at hd
      exact hd.trans (ih _)
    · next heq =>
      rw [heq] at hd
      exact hd.trans (becomes_of_eq (census_modifyNode _ n fun _ => rfl))

theorem becomes_serve (K : KeyScheme) (h : Host) (n : Nat) (date : Int32) :
    h.Becomes (some .meet) (h.serve K n date) := by
  rw [serve]
  split
  · exact .refl h
  · split_ifs
    · exact becomes_of_eq (h.census_modifyNode n fun _ => rfl)
    · refine Becomes.trans (becomes_of_eq ?_) (becomes_serveAll K n date _ _)
      exact h.census_modifyNode n fun _ => rfl

theorem conversations_absorb (h : Host) (i : Nat) (s : Signal) :
    (h.absorb i s).conversations = h.conversations := by
  cases s with
  | wake => rfl
  | datagram => rfl
  | heard =>
    rw [absorb, hear]
    split <;> rfl
  | asked =>
    rw [absorb, inquire]
    split
    · rfl
    · split_ifs <;> rfl
  | stopped =>
    rw [absorb, forget]
    split <;> rfl

theorem conversations_foldl_absorb (h : Host) (i : Nat) (signals : List Signal) :
    (signals.foldl (absorb i) h).conversations = h.conversations := by
  induction signals generalizing h with
  | nil => rfl
  | cons s signals ih => exact (ih _).trans (h.conversations_absorb i s)

theorem census_absorb (h : Host) (i : Nat) {signal : Signal} (hsignal : signal ≠ .stopped) :
    (h.absorb i signal).census = h.census := by
  cases signal with
  | wake => rfl
  | datagram => rfl
  | heard =>
    rw [absorb, hear]
    split <;> rfl
  | asked =>
    rw [absorb, inquire]
    split
    · rfl
    · split_ifs <;> rfl
  | stopped => exact absurd rfl hsignal

theorem census_forget (h : Host) (i : Nat) : (h.forget i).census = h.census ∨
    ∃ c, h.conversations[i]? = some c ∧ (h.forget i).census = { h.census with
      seats := h.census.seats.modify c.node (·.forget c.pair.remote.key.shortId i) } := by
  rw [forget]
  split
  · exact .inl rfl
  · next c node howner =>
    simp only [owner?, Option.bind_eq_bind, Option.bind_eq_some_iff, Option.pure_def,
      Option.some.injEq, Prod.mk.injEq] at howner
    obtain ⟨c', hc', node', -, rfl, rfl⟩ := howner
    exact .inr ⟨c', hc', congrArg (Census.mk h.routes · _ _) (map_modify_of_comm fun _ => rfl)⟩

theorem becomes_forget (hc : h.conversations[i]? = some c) (hover : c.standing.Over) :
    h.Becomes s (h.forget i) := by
  obtain hsame | ⟨c', hc', hforget⟩ := h.census_forget i
  · exact becomes_of_eq hsame
  · obtain rfl := Option.some.inj (hc'.symm.trans hc)
    have hchange := Census.Change.forgot (s := s) (standings_census hc) hover
    rw [Becomes, hforget]
    exact .single hchange

/-- A turn of a conversation does nothing to the nodes but that one may forget it. -/
theorem seats_turn {P : List Seat → Prop}
    (hP : ∀ seats n remote, P seats → P (seats.modify n (·.forget remote i))) (h : Host)
    (f : Turn → Turn) (hseats : P h.census.seats) : P (h.turn i f).census.seats := by
  have habsorb (h : Host) (signal : Signal) (hseats : P h.census.seats) :
      P (h.absorb i signal).census.seats := by
    by_cases hsignal : signal = .stopped
    · subst hsignal
      rw [absorb]
      obtain hsame | ⟨_, _, hforget⟩ := h.census_forget i
      · exact hsame ▸ hseats
      · exact hforget ▸ hP _ _ _ hseats
    · exact (h.census_absorb i hsignal) ▸ hseats
  have hfold (signals : List Signal) (h : Host) (hseats : P h.census.seats) :
      P (signals.foldl (absorb i) h).census.seats := by
    induction signals generalizing h with
    | nil => exact hseats
    | cons signal signals ih => exact ih _ (habsorb h signal hseats)
  rw [turn]
  split
  · exact hseats
  · exact hfold _ _ hseats

theorem becomes_foldl_absorb (hc : h.conversations[i]? = some c) {signals : List Signal}
    (hover : .stopped ∈ signals → c.standing.Over) :
    h.Becomes s (signals.foldl (absorb i) h) := by
  induction signals generalizing h with
  | nil => exact .refl h
  | cons signal signals ih =>
    have hnext := ih ((h.conversations_absorb i signal).symm ▸ hc)
      fun hmem => hover (List.mem_cons_of_mem _ hmem)
    refine Becomes.trans ?_ hnext
    by_cases hsignal : signal = .stopped
    · subst hsignal
      exact becomes_forget hc (hover List.mem_cons_self)
    · exact becomes_of_eq (h.census_absorb i hsignal)

theorem becomes_turn {f : Turn → Turn} (hf : ∀ t : Turn, t.Proceeds (s = some .late) (f t)) (h : Host) (i : Nat) :
    h.Becomes s (h.turn i f) := by
  rw [turn]
  split
  · exact .refl h
  · next c hc =>
    let t : Turn := { conversation := c, routes := h.routes }
    have hnext : Relation.ReflTransGen (Outlook.Next (s = some .late)) t.outlook (f t).outlook := hf t
    have hchanges := Census.changes_of_nexts (s := s) (c := h.census) (o := t.outlook)
      (standings_census hc) rfl hnext
    have hover := Outlook.over_of_isOver (o := t.outlook) (by rintro ⟨⟩) hnext
    have hlt := (List.getElem?_eq_some_iff.1 hc).1
    let turned : Host := { h with
      conversations := h.conversations.set i (f t).conversation, routes := (f t).routes }
    have hcensus : turned.census =
        { h.census with
          routes := (f t).outlook.routes
          standings := h.census.standings.set i (f t).outlook.standing } := by
      simp only [turned, census, List.map_set]
      rfl
    have hturned : h.Becomes s turned := by
      rw [Becomes, hcensus]
      exact hchanges
    exact hturned.trans (becomes_foldl_absorb (List.getElem?_set_self hlt) fun hmem =>
      hover (decide_eq_true hmem))

theorem becomes_close (h : Host) (i : Nat) : h.Becomes s (h.close i) := by
  refine (becomes_turn Turn.proceeds_close h i).trans (becomes_foldl ?_ _ _)
  exact fun _ _ => becomes_of_eq rfl

theorem becomes_closeNode (h : Host) (n : Nat) : h.Becomes s (h.closeNode n) := by
  refine Becomes.trans (becomes_of_eq ?_) (becomes_foldl becomes_close _ _)
  exact h.census_modifyNode n fun _ => rfl

theorem becomes_dropNode (h : Host) (n : Nat) : h.Becomes s (h.dropNode n) := by
  refine (h.becomes_closeNode n).trans ?_
  simp only [dropNode]
  split
  · exact .refl _
  · next node hn =>
    have hcensus : (({ h.closeNode n with
          routes := (h.closeNode n).routes.release node.id node.ticket } : Host).modifyNode n
          fun n => { n with isDropped := true }).census =
        { (h.closeNode n).census with
          routes := (h.closeNode n).routes.release node.id node.ticket
          seats := (h.closeNode n).census.seats.modify n Seat.drop } :=
      congrArg (Census.mk _ · _ _) (map_modify_of_comm fun _ => rfl)
    rw [Becomes, hcensus]
    exact .single (.dropped (seats_census hn))

theorem becomes_connect (h : Host) (n : Nat) (remote : Descriptor) (date : Int32) :
    h.Becomes (some .seek) (h.connect n remote date).2 := by
  rw [connect]
  split
  · exact .refl h
  · next node hn =>
    split_ifs
    · exact .refl h
    · split
      · refine becomes_turn (fun t => Turn.proceeds_of_eq ?_) h _
        obtain ⟨_, _, hp⟩ := t.conversation.pair.updateList_eq remote.addresses
        refine t.outlook_become_of_channel_eq ?_ ?_ <;> rw [hp]
        rfl
      · next hlive =>
        exact (becomes_start hn hlive date).trans
          (becomes_turn (fun t => Turn.proceeds_of_eq (t.outlook_offer .nop)) _ _)

theorem census_prepareQuery (h : Host) (i : Nat) (query : Bytes) (timeout : Nat) :
    (h.prepareQuery i query timeout).2.census = h.census := by
  rw [prepareQuery]
  split
  · rfl
  · next c hc => exact census_set_of_eq hc rfl

theorem becomes_answerQuery (h : Host) (now k : Nat) : h.Becomes s (h.answerQuery now k) := by
  have hpresent (h : Host) (q : InboundQuery) : h.Becomes s (h.presentQuery now k q) := by
    rw [presentQuery]
    split
    · exact .refl h
    · exact becomes_of_eq (census_modifyNode _ _ fun _ => rfl)
  have hconclude (h : Host) (q : InboundQuery) : h.Becomes s (h.concludeQuery now k q) := by
    rw [concludeQuery]
    split
    · exact .refl h
    · dsimp only
      split
      · exact becomes_of_eq rfl
      · refine Becomes.trans (becomes_of_eq ?_)
          (becomes_turn (fun t => Turn.proceeds_of_eq (t.outlook_enqueue _)) _ _)
        rfl
  rw [answerQuery]
  cases hq : h.queries[k]? with
  | none =>
    dsimp only
    rw [hq]
    exact .refl h
  | some q =>
    dsimp only
    by_cases hfresh : q.stage = .fresh
    · rw [if_pos hfresh]
      split
      · exact (hpresent h q).trans (hconclude _ _)
      · exact hpresent h q
    · rw [if_neg hfresh, hq]
      exact hconclude h q

/-! ## Everything that can happen -/

/-- One thing that happens on a host: something runs, a datagram arrives, or the application asks
for something. -/
inductive Act
  | run (now : Moment) (activity : Activity)
  /-- A conversation goes on for a step and overlooks that it may have been closed. -/
  | late (now : Moment) (i : Nat) (task : Task)
  /-- Nobody holds a conversation any more. -/
  | vanish (i : Nat)
  | arrive (d : Datagram)
  | check (now : Nat) (ip : Ip)
  | addNode (options : NodeOptions) (date : Int32)
  | connect (n : Nat) (remote : Descriptor) (date : Int32)
  | send (i : Nat) (data : Bytes)
  | startQuery (i : Nat) (query : Bytes) (timeout : Nat)
  | askQuery (now i : Nat) (query : Bytes) (timeout : Nat)
  | respond (n place : Nat) (data : Bytes)
  | releaseHeld (n : Nat)
  | look (n : Nat)
  | close (i : Nat)
  | closeNode (n : Nat)
  | dropNode (n : Nat)
  | shutDown
  | expire (now : Nat)
  | listen (id : ShortId) (kind : RouteKind) (capacity : Nat)
  | unlisten (k : Nat)
  | tend (k : Nat) (f : Inbox → Inbox)
  | sendTo (id : ShortId) (target : Address) (data : Bytes)
  | discharge

def afterwards (h : Host) : Except Error Host → Host
  | .ok h' => h'
  | .error _ => h

def act (K : KeyScheme) (h : Host) : Act → Host
  | .run now activity => h.run K now activity
  | .late now i task => h.turn i fun t => t.late K now task
  | .vanish i => h.turn i Turn.vanish
  | .arrive d => h.arrive d
  | .check now ip => (h.checkRate now ip).2
  | .addNode options date => h.afterwards ((h.addNode K options date).map Prod.snd)
  | .connect n remote date => (h.connect n remote date).2
  | .send i data => (h.sendMessage i data).2
  | .startQuery i query timeout => (h.startQuery i query timeout).2
  | .askQuery now i query timeout => (h.askQuery now i query timeout).2
  | .respond n place data => (h.respond n place data).2
  | .releaseHeld n => (h.releaseHeld n).2
  | .look n => h.look n
  | .close i => h.close i
  | .closeNode n => h.closeNode n
  | .dropNode n => h.dropNode n
  | .shutDown => h.shutDown
  | .expire now => h.expire now
  | .listen id kind capacity => h.afterwards (h.listen id kind capacity)
  | .unlisten k => h.unlisten k
  | .tend k f => h.modifyListener k f
  | .sendTo id target data => h.afterwards (h.sendTo id target data)
  | .discharge => { h with effects := [], events := [] }

/-- What an act may do that others do not. -/
def Act.special? : Act → Option Special
  | .run _ (.serve _) => some .meet
  | .late .. => some .late
  | .vanish _ => some .late
  | .connect .. => some .seek
  | .look n => some (.look n)
  | .listen .. => some .listen
  | .unlisten _ => some .listen
  | _ => none

theorem becomes_afterwards {e : Except Error Host} (he : ∀ h', e = .ok h' → h.Becomes s h') :
    h.Becomes s (h.afterwards e) := by
  cases e with
  | error => exact .refl h
  | ok h' => exact he h' rfl

theorem becomes_addNode (K : KeyScheme) (h : Host) (options : NodeOptions) (date : Int32) :
    h.Becomes s (h.afterwards ((h.addNode K options date).map Prod.snd)) := by
  refine becomes_afterwards fun h' hok => ?_
  rw [addNode] at hok
  split at hok
  · cases hok
  · next ticket routes hregister =>
    cases hok
    refine .single ?_
    simp only [census, wake, emit, List.map_append]
    exact .added hregister

theorem becomes_sendMessage (h : Host) (i : Nat) (data : Bytes) :
    h.Becomes s (h.sendMessage i data).2 := by
  rw [sendMessage]
  split
  · exact .refl h
  · split
    · exact .refl h
    · split_ifs
      · exact .refl h
      · exact becomes_turn (fun t => Turn.proceeds_of_eq (t.outlook_offer _)) h i

theorem becomes_releaseHeld (h : Host) (n : Nat) : h.Becomes s (h.releaseHeld n).2 := by
  rw [releaseHeld]
  split
  · exact .refl h
  · refine Becomes.trans (becomes_of_eq ?_) (becomes_foldl ?_ _ _)
    · exact h.census_modifyNode n fun _ => rfl
    · exact fun _ _ => becomes_of_eq rfl

theorem becomes_look (h : Host) (n : Nat) : h.Becomes (some (.look n)) (h.look n) := by
  have hcensus : (h.look n).census =
      { h.census with seats := h.census.seats.modify n Seat.look } :=
    congrArg (Census.mk h.routes · _ _) (map_modify_of_comm fun _ => rfl)
  rw [Becomes, hcensus]
  exact .single (.looked rfl)

theorem becomes_listen (h : Host) (id : ShortId) (kind : RouteKind) (capacity : Nat) :
    h.Becomes (some .listen) (h.afterwards (h.listen id kind capacity)) := by
  refine becomes_afterwards fun h' hok => ?_
  rw [listen] at hok
  split at hok
  · cases hok
  · next hregister =>
    cases hok
    exact .single (.listened rfl hregister)

theorem becomes_sendTo (h : Host) (id : ShortId) (target : Address) (data : Bytes) :
    h.Becomes s (h.afterwards (h.sendTo id target data)) := by
  refine becomes_afterwards fun h' hok => ?_
  rw [sendTo] at hok
  split_ifs at hok
  cases hok
  exact becomes_of_eq rfl

/-- Whatever happens on a host is a series of changes. -/
theorem becomes_act (K : KeyScheme) (h : Host) (a : Act) : h.Becomes a.special? (h.act K a) := by
  cases a with
  | run now activity =>
    cases activity with
    | route => exact becomes_of_eq (h.census_route now.elapsed)
    | serve n => exact h.becomes_serve K n now.date
    | converse i task => exact becomes_turn (fun t => t.proceeds_run K now task) h i
    | answer k => exact h.becomes_answerQuery now.elapsed k
  | late now i task => exact becomes_turn (fun t => t.proceeds_late K rfl now task) h i
  | vanish i => exact becomes_turn (fun t => t.proceeds_vanish rfl) h i
  | arrive => exact becomes_of_eq rfl
  | check => exact becomes_of_eq rfl
  | addNode options date => exact h.becomes_addNode K options date
  | connect n remote date => exact h.becomes_connect n remote date
  | send i data => exact h.becomes_sendMessage i data
  | startQuery i query timeout => exact becomes_of_eq (h.census_prepareQuery i query timeout)
  | askQuery now i query timeout =>
    exact (becomes_of_eq (h.census_prepareQuery i query timeout)).trans
      (becomes_turn (fun t => Turn.proceeds_of_eq (t.outlook_pursue now _)) _ i)
  | respond n place data =>
    change h.Becomes none (h.respond n place data).2
    rw [respond]
    split <;> exact becomes_of_eq rfl
  | releaseHeld n => exact h.becomes_releaseHeld n
  | look n => exact h.becomes_look n
  | close i => exact h.becomes_close i
  | closeNode n => exact h.becomes_closeNode n
  | dropNode n => exact h.becomes_dropNode n
  | shutDown =>
    refine Becomes.trans (becomes_of_eq ?_) (becomes_foldl becomes_closeNode _ _)
    rfl
  | expire =>
    refine becomes_foldl ?_ _ h
    exact fun _ _ => becomes_of_eq rfl
  | listen id kind capacity => exact h.becomes_listen id kind capacity
  | unlisten k =>
    change h.Becomes (some .listen) (h.unlisten k)
    rw [unlisten]
    split
    · exact .refl h
    · exact .single (.unlistened rfl _ _)
  | tend => exact becomes_of_eq rfl
  | sendTo id target data => exact h.becomes_sendTo id target data
  | discharge => exact becomes_of_eq rfl

def perform (K : KeyScheme) (h : Host) (acts : List Act) : Host := acts.foldl (act K) h

theorem perform_nil (K : KeyScheme) (h : Host) : h.perform K [] = h := rfl

theorem perform_singleton (K : KeyScheme) (h : Host) (a : Act) : h.perform K [a] = h.act K a := rfl

theorem perform_append (K : KeyScheme) (h : Host) (acts later : List Act) :
    h.perform K (acts ++ later) = (h.perform K acts).perform K later := List.foldl_append

/-- What holds of what is counted, and is left alone by every change, holds throughout. -/
theorem perform_induction {P : Census → Prop} (allowed : Option Special → Prop)
    (hP : ∀ s c c', allowed s → c.Change s c' → P c → P c') (K : KeyScheme) {h : Host}
    {acts : List Act} (hacts : ∀ a ∈ acts, allowed a.special?) (h0 : P h.census) :
    P (h.perform K acts).census := by
  induction acts generalizing h with
  | nil => exact h0
  | cons a acts ih =>
    refine ih (h := h.act K a) (fun a' ha' => hacts a' (List.mem_cons_of_mem _ ha')) ?_
    have ha := hacts a List.mem_cons_self
    exact (h.becomes_act K a).preserves (fun c c' => hP _ c c' ha) h0

theorem stays_perform {P : Standing → Prop} (allowed : Option Special → Prop)
    (hP : ∀ s, allowed s → ∀ o o' : Outlook, o.Next (s = some .late) o' → P o.standing →
      P o'.standing) (K : KeyScheme) {h : Host} {acts : List Act}
    (hacts : ∀ a ∈ acts, allowed a.special?) {i : Nat} {c : Conversation}
    (hc : h.conversations[i]? = some c) (hstanding : P c.standing) :
    ∃ c', (h.perform K acts).conversations[i]? = some c' ∧ P c'.standing := by
  obtain ⟨standing, hi, hstanding⟩ := perform_induction allowed
    (P := fun c => ∃ standing, c.standings[i]? = some standing ∧ P standing)
    (fun s _ _ hs hchange ⟨_, hi, hstanding⟩ => hchange.stays (hP s hs) hi hstanding) K
    hacts ⟨_, standings_census hc, hstanding⟩
  obtain ⟨c', hc', rfl⟩ := exists_of_standings_census hi
  exact ⟨c', hc', hstanding⟩

end Host

end Adnl
