import Adnl.Proofs.Dialogue.Genuine
import Adnl.Proofs.Host.Announcements
import Adnl.Proofs.Host.Letters

/-! # One live conversation with each peer

A node keeps, for each remote identity, the position of the conversation that began last. One that
is not closed is always found there: it gives its place up to nobody, and the cleanup of one that
has ended takes away only the entry that points to it. A closed conversation is given no packets any
more, and those that packets have begun are announced once.
-/
namespace Adnl

theorem lookup_filter_of_lookup {α β : Type} [BEq α] [LawfulBEq α] {l : List (α × β)} {a : α}
    {b : β} {keep : α × β → Bool} (h : l.lookup a = some b) (hkeep : keep (a, b) = true) :
    (l.filter keep).lookup a = some b := by
  obtain ⟨before, after, rfl, hbefore⟩ := List.lookup_eq_some_iff.1 h
  rw [List.filter_append, List.filter_cons_of_pos hkeep]
  exact List.lookup_eq_some_iff.2
    ⟨_, _, rfl, fun e he => hbefore e (List.mem_of_mem_filter he)⟩

theorem mem_of_lookup {α β : Type} [BEq α] [LawfulBEq α] {l : List (α × β)} {a : α} {b : β}
    (h : l.lookup a = some b) : (a, b) ∈ l := by
  obtain ⟨before, after, rfl, -⟩ := List.lookup_eq_some_iff.1 h
  exact List.mem_append_right _ List.mem_cons_self

namespace Seat

variable {seat : Seat} {remote other : ShortId} {i j : Nat}

theorem lookup_enter_self : (seat.enter remote i).peers.lookup remote = some i := by
  simp [enter]

theorem lookup_enter_of_ne (hne : other ≠ remote) (hj : seat.peers.lookup other = some j) :
    (seat.enter remote i).peers.lookup other = some j := by
  rw [enter, List.lookup_cons, beq_eq_false_iff_ne.2 hne]
  exact lookup_filter_of_lookup hj (by simpa using hne)

theorem lookup_forget_of_ne (hne : j ≠ i) (hj : seat.peers.lookup other = some j) :
    (seat.forget remote i).peers.lookup other = some j :=
  lookup_filter_of_lookup hj (by simp [hne])

end Seat

theorem Outlook.Next.isClosed {late : Prop} {o o' : Outlook} (h : o.Next late o')
    (hclosed : o.standing.isClosed = true) : o'.standing.isClosed = true := by
  cases h with
  | closed => rfl
  | _ => exact hclosed

/-- What comes before a closed conversation has come through its channel, which has overlooked that
it is closed. -/
theorem Outlook.Next.input_or {late : Prop} {o o' : Outlook} (h : o.Next late o')
    (hclosed : o.standing.isClosed = true) : o'.standing.input <:+ o.standing.input ∨
      late ∧ ∃ i, i.viaChannel = true ∧ o'.standing.input = o.standing.input ++ [i] := by
  cases h with
  | took htook => exact .inl htook
  | passed _ hopen =>
    rw [hclosed] at hopen
    cases hopen
  | passedLate hlate i hvia => exact .inr ⟨hlate, i, hvia, rfl⟩
  | brokeDown => exact .inl List.nil_suffix
  | ended => exact .inl List.nil_suffix
  | _ => exact .inl List.suffix_rfl

theorem Outlook.Next.input {late : Prop} {o o' : Outlook} (h : o.Next late o') (hlate : ¬ late)
    (hclosed : o.standing.isClosed = true) : o'.standing.input <:+ o.standing.input :=
  (h.input_or hclosed).resolve_right fun hpassed => hlate hpassed.1

theorem Outlook.Next.filter_input {late : Prop} {o o' : Outlook} (h : o.Next late o')
    (hclosed : o.standing.isClosed = true) : o'.standing.input.filter (!·.viaChannel) <:+
      o.standing.input.filter (!·.viaChannel) := by
  obtain hinput | ⟨-, i, hvia, hinput⟩ := h.input_or hclosed
  · exact hinput.filter _
  · rw [hinput, List.filter_append, List.filter_cons_of_neg (by simp [hvia]), List.filter_nil,
      List.append_nil]

namespace Census

/-- The live conversations are found. -/
structure Seated (c : Census) : Prop where
  found : ∀ (i : Nat) (standing : Standing), c.standings[i]? = some standing →
    standing.isClosed = false → ∃ seat, c.seats[standing.parties.node]? = some seat ∧
      seat.peers.lookup standing.parties.peer.shortId = some i
  listed : ∀ (n : Nat) (seat : Seat), c.seats[n]? = some seat → ∀ e ∈ seat.peers,
    ∃ p, c.parties[e.2]? = some p ∧ p.node = n ∧ p.peer.shortId = e.1

variable {s : Option Special} {c c' : Census}

theorem Seated.modify (h : c.Seated) {f : Seat → Seat}
    (hfound : ∀ (i : Nat) (standing : Standing) (seat : Seat), c.standings[i]? = some standing →
      standing.isClosed = false → seat.peers.lookup standing.parties.peer.shortId = some i →
      (f seat).peers.lookup standing.parties.peer.shortId = some i)
    (hlisted : ∀ seat, (f seat).peers ⊆ seat.peers) (m : Nat) (routes : RouteTable) :
    Seated ⟨routes, c.seats.modify m f, c.standings, c.capacity⟩ where
  found i standing hi hopen := by
    obtain ⟨seat, hn, hlookup⟩ := h.found i standing hi hopen
    refine ⟨_, getElem?_modify_of_some hn m f, ?_⟩
    split_ifs
    · exact hfound i standing seat hi hopen hlookup
    · exact hlookup
  listed n seat hn e he := by
    obtain ⟨seat', hseat', rfl⟩ := getElem?_modify_eq_some hn
    refine h.listed n seat' hseat' e ?_
    split_ifs at he
    · exact hlisted seat' he
    · exact he

theorem Seated.turned (h : c.Seated) {i : Nat} {standing : Standing} {isOver : Bool} {o : Outlook}
    (hi : c.standings[i]? = some standing)
    {late : Prop} (hnext : Outlook.Next late ⟨standing, c.routes, isOver⟩ o) :
    Seated { c with routes := o.routes, standings := c.standings.set i o.standing } where
  found j standing' hj hopen := by
    by_cases hij : i = j
    · subst hij
      rw [List.getElem?_set_self (List.getElem?_eq_some_iff.1 hi).1] at hj
      obtain rfl := Option.some.inj hj
      rw [hnext.parties_eq]
      refine h.found i standing hi (Bool.eq_false_iff.2 fun hclosed => ?_)
      rw [hnext.isClosed hclosed] at hopen
      cases hopen
    · rw [List.getElem?_set_ne hij] at hj
      exact h.found j standing' hj hopen
  listed n seat hn e he := by
    rw [parties, map_set_of_eq hi hnext.parties_eq]
    exact h.listed n seat hn e he

/-- A conversation takes the place of one that is closed, or a place that is free. -/
theorem Seated.began (h : c.Seated) {n : Nat} {seat : Seat} {own : LocalIdentity}
    {peer : PublicKey} {f : Seat → Seat} (hn : c.seats[n]? = some seat)
    (hlast : ∀ i standing, seat.peers.lookup peer.shortId = some i →
      c.standings[i]? = some standing → standing.isClosed = true)
    (hf : ∀ seat, (f seat).peers = (seat.enter peer.shortId c.standings.length).peers) :
    Seated { c with
      seats := c.seats.modify n f
      standings := c.standings ++ [{ parties := ⟨n, own, peer⟩ }] } where
  found i standing hi hopen := by
    obtain hold | ⟨rfl, rfl⟩ := getElem?_concat_eq_some hi
    · obtain ⟨seat', hseat', hlookup⟩ := h.found i standing hold hopen
      refine ⟨_, getElem?_modify_of_some hseat' n f, ?_⟩
      split_ifs with hnode
      · subst hnode
        obtain rfl := Option.some.inj (hn.symm.trans hseat')
        rw [hf]
        refine Seat.lookup_enter_of_ne (fun hpeer => ?_) hlookup
        rw [hlast i standing (hpeer ▸ hlookup) hold] at hopen
        cases hopen
      · exact hlookup
    · refine ⟨_, getElem?_modify_of_some hn n f, ?_⟩
      rw [if_pos rfl, hf, Seat.lookup_enter_self]
  listed m seat' hm e he := by
    obtain ⟨seat'', hseat'', rfl⟩ := getElem?_modify_eq_some hm
    have hparties : parties { c with
        seats := c.seats.modify n f
        standings := c.standings ++ [{ parties := ⟨n, own, peer⟩ }] } =
          c.parties ++ [⟨n, own, peer⟩] := List.map_append
    have hkept (he : e ∈ seat''.peers) : ∃ p, (c.parties ++ [⟨n, own, peer⟩])[e.2]? = some p ∧
        p.node = m ∧ p.peer.shortId = e.1 := by
      obtain ⟨p, hp, hnode, hpeer⟩ := h.listed m seat'' hseat'' e he
      exact ⟨p, (List.getElem?_append_left (List.getElem?_eq_some_iff.1 hp).1).trans hp, hnode,
        hpeer⟩
    rw [hparties]
    split_ifs at he with hnode
    · subst hnode
      rw [hf] at he
      obtain rfl | he := List.mem_cons.1 he
      · refine ⟨⟨n, own, peer⟩, ?_, rfl, rfl⟩
        simp [parties]
      · exact hkept (List.mem_of_mem_filter he)
    · exact hkept he

theorem Seated.added (h : c.Seated) (routes : RouteTable) {seat : Seat} (hpeers : seat.peers = []) :
    Seated { c with routes, seats := c.seats ++ [seat] } where
  found i standing hi hopen := by
    obtain ⟨seat', hn, hlookup⟩ := h.found i standing hi hopen
    exact ⟨seat', (List.getElem?_append_left (List.getElem?_eq_some_iff.1 hn).1).trans hn, hlookup⟩
  listed n seat' hn e he := by
    obtain hn | ⟨-, rfl⟩ := getElem?_concat_eq_some hn
    · exact h.listed n seat' hn e he
    · rw [hpeers] at he
      cases he

theorem Seated.change (h : c.Seated) (hchange : c.Change s c') : c'.Seated := by
  cases hchange with
  | turned hi hnext => exact h.turned hi hnext
  | @forgot i standing hi hover =>
    refine h.modify (fun j standing' seat hj hopen hlookup => ?_)
      (fun seat => List.filter_sublist.subset) _ _
    refine Seat.lookup_forget_of_ne ?_ hlookup
    rintro rfl
    obtain rfl := Option.some.inj (hi.symm.trans hj)
    rw [hover.isClosed] at hopen
    cases hopen
  | began _ own peer hn hlast =>
    refine h.began hn hlast fun seat => ?_
    dsimp only
    split_ifs <;> rfl
  | added => exact h.added _ rfl
  | dropped =>
    exact h.modify (f := Seat.drop) (fun _ _ _ _ _ => id) (fun _ => List.Subset.refl _) _ _
  | looked =>
    exact h.modify (f := Seat.look) (fun _ _ _ _ _ => id) (fun _ => List.Subset.refl _) _ _
  | listened => exact ⟨h.found, h.listed⟩
  | unlistened => exact ⟨h.found, h.listed⟩

end Census

theorem Turn.unlockDatagram_of_decode {t : Turn} {c : Channel} {d : Datagram} {data : Bytes}
    {p : Packet} (hdeaf : t.conversation.isDeaf = false)
    (hopens : Envelope.unlock c.keys.decrypt d.payload = .ok data)
    (hdecode : Packet.decode data = .ok p) : t.unlockDatagram c d =
      (true, ({ t with conversation := { t.conversation with
        pair := t.conversation.pair.markReady } } : Turn).pass ⟨p, d.source, true⟩) := by
  simp only [unlockDatagram, hopens, hdecode, become_markReady]
  exact if_neg (Bool.eq_false_iff.1 hdeaf)

namespace Host

variable {h : Host} {n i : Nat} {remote : ShortId}

/-- The conversations that are found to be live are those that are, and no two are with the same. -/
theorem live?_eq_some_iff (hseated : h.census.Seated) :
    h.live? n remote = some i ↔ ∃ c, h.conversations[i]? = some c ∧ c.isClosed = false ∧
      c.node = n ∧ c.pair.remote.key.shortId = remote := by
  constructor
  · intro hlive
    obtain ⟨node, c, hn, hi, hc, hopen⟩ := exists_open_of_live? hlive
    obtain ⟨p, hp, hnode, hpeer⟩ := hseated.listed n _ (seats_census hn) _ (mem_of_lookup hi)
    rw [parties_census, parties, List.getElem?_map, hc] at hp
    obtain rfl := Option.some.inj hp
    exact ⟨c, hc, hopen, hnode, hpeer⟩
  · rintro ⟨c, hc, hopen, rfl, rfl⟩
    obtain ⟨seat, hseat, hi⟩ := hseated.found i _ (standings_census hc) hopen
    obtain ⟨node, hn, rfl⟩ := exists_of_seats_census hseat
    have hn : h.nodes[c.node]? = some node := hn
    have hi : node.peers.lookup c.pair.remote.key.shortId = some i := hi
    simp [live?, hn, hi, hc, hopen]

theorem seated_bind (address : Address) (config : Config) (supplies : Nat → Supply) (now : Nat) :
    (bind address config supplies now).census.Seated where
  found := by rintro i standing hi; cases hi
  listed := by rintro n seat hn; cases hn

theorem seated_perform (K : KeyScheme) (acts : List Act) (hseated : h.census.Seated) :
    (h.perform K acts).census.Seated :=
  perform_induction (fun _ => True) (fun _ _ _ _ hchange hc => hc.change hchange) K
    (fun _ _ => trivial) hseated

theorem lookup_turn {node : Node} {j : Nat} (hn : h.nodes[n]? = some node)
    (hj : node.peers.lookup remote = some j) (hne : j ≠ i) (f : Turn → Turn) :
    ∃ node', (h.turn i f).nodes[n]? = some node' ∧ node'.peers.lookup remote = some j := by
  obtain ⟨seat, hseat, hj⟩ := seats_turn (i := i)
    (P := fun seats => ∃ seat, seats[n]? = some seat ∧ seat.peers.lookup remote = some j)
    (fun seats m other ⟨seat, hseat, hj⟩ => by
      refine ⟨_, getElem?_modify_of_some hseat m _, ?_⟩
      split_ifs
      · exact Seat.lookup_forget_of_ne hne hj
      · exact hj) h f ⟨_, seats_census hn, hj⟩
  obtain ⟨node', hn', rfl⟩ := exists_of_seats_census hseat
  exact ⟨node', hn', hj⟩

/-- A closed conversation stays closed, and is given no packets any more but what its channel lets
through because it has overlooked that. -/
theorem closed_perform (K : KeyScheme) (acts : List Act) {c : Conversation}
    (hc : h.conversations[i]? = some c) (hclosed : c.isClosed = true) :
    ∃ c', (h.perform K acts).conversations[i]? = some c' ∧ c'.isClosed = true ∧
      c'.input.filter (!·.viaChannel) <:+ c.input.filter (!·.viaChannel) ∧
      ((∀ a ∈ acts, a.special? ≠ some .late) → c'.input <:+ c.input) := by
  have hplain := stays_perform (fun _ => True) (P := fun s => s.isClosed = true ∧
    s.input.filter (!·.viaChannel) <:+ c.input.filter (!·.viaChannel))
    (fun _ _ _ _ hnext ⟨hclosed, hinput⟩ =>
      ⟨hnext.isClosed hclosed, (hnext.filter_input hclosed).trans hinput⟩)
    K (fun a (_ : a ∈ acts) => trivial) hc ⟨hclosed, List.suffix_rfl⟩
  obtain ⟨c', hc', hclosed', hplain⟩ := hplain
  refine ⟨c', hc', hclosed', hplain, fun hacts => ?_⟩
  have hall := stays_perform (· ≠ some .late)
    (P := fun s => s.isClosed = true ∧ s.input <:+ c.input)
    (fun _ hs _ _ hnext ⟨hclosed, hinput⟩ =>
      ⟨hnext.isClosed hclosed, (hnext.input hs hclosed).trans hinput⟩)
    K hacts hc ⟨hclosed, List.suffix_rfl⟩
  obtain ⟨c'', hc'', -, hinput⟩ := hall
  obtain rfl := Option.some.inj (hc'.symm.trans hc'')
  exact hinput

/-- After everything that can happen the conversations that are not closed are the ones that are
found under the identity of the other side, of which there is one at most, and the cleanup after one
leaves another one in its place. A closed one is given nothing more but what its channel lets
through because it has overlooked that. The conversations that packets begin, and no others, are
announced, each once; between two looks the latest are kept. -/
theorem one_live_conversation (K : KeyScheme) (address : Address) (config : Config)
    (supplies : Nat → Supply) (now : Nat) (acts : List Act) {start h : Host}
    (hstart : bind address config supplies now = start) (hh : start.perform K acts = h) :
    (∀ n remote i, h.live? n remote = some i ↔ ∃ c, h.conversations[i]? = some c ∧
      c.isClosed = false ∧ c.node = n ∧ c.pair.remote.key.shortId = remote) ∧
      (∀ (i j : Nat) (c c' : Conversation), h.conversations[i]? = some c →
        h.conversations[j]? = some c' → c.isClosed = false → c'.isClosed = false →
        c.node = c'.node → c.pair.remote.key.shortId = c'.pair.remote.key.shortId → i = j) ∧
      (∀ (n : Nat) (node : Node) remote now i j task, h.nodes[n]? = some node →
        node.peers.lookup remote = some j → j ≠ i →
        ∃ node', (h.act K (.run now (.converse i task))).nodes[n]? = some node' ∧
          node'.peers.lookup remote = some j) ∧
      (∀ a, (h.act K a).conversations.length ≠ h.conversations.length →
        (∃ now n, a = .run now (.serve n)) ∨ ∃ n remote date, a = .connect n remote date) ∧
      (∀ (later : List Act) (i : Nat) (c : Conversation), h.conversations[i]? = some c →
        c.isClosed = true →
        ∃ c', (h.perform K later).conversations[i]? = some c' ∧ c'.isClosed = true ∧
          c'.input.filter (!·.viaChannel) <:+ c.input.filter (!·.viaChannel) ∧
          ((∀ a ∈ later, a.special? ≠ some .late) → c'.input <:+ c.input)) ∧
      ∀ n, (start.contactsOf K n acts).Pairwise (· < ·) ∧
        (∀ before a after, acts = before ++ a :: after →
          ∀ i ∈ (start.perform K before).beginnings K n a,
            i ∈ start.contactsOf K n acts ↔ ∀ m remote date, a ≠ .connect m remote date) ∧
        ∃ pieces : List (List Nat), pieces.flatten = start.contactsOf K n acts ∧
          List.Forall₂ (fun b piece => b.Keeps piece ∧
            b.capacity = (max config.announcementCapacity 1).nextPowerOfTwo)
            (start.found K n acts) pieces := by
  subst hstart
  have hseated : h.census.Seated :=
    hh ▸ seated_perform K acts (seated_bind address config supplies now)
  refine ⟨fun n remote i => live?_eq_some_iff hseated, ?_, ?_, fun a hlength => ?_,
    fun later i c hc => closed_perform K later hc, fun n => ⟨pairwise_contactsOf K _ n acts, ?_, ?_⟩⟩
  · intro i j c c' hc hc' hopen hopen' hnode hpeer
    have hi := (live?_eq_some_iff hseated).2 ⟨c, hc, hopen, rfl, rfl⟩
    have hj := (live?_eq_some_iff hseated).2 ⟨c', hc', hopen', hnode.symm, hpeer.symm⟩
    exact Option.some.inj (hi.symm.trans hj)
  · intro n node remote now i j task hn hj hne
    exact lookup_turn hn hj hne _
  · obtain ⟨begun, hbegins⟩ := (h.becomes_act K a).begins
    refine begun_of_ne hbegins fun hnone => hlength ?_
    have hparties := congrArg List.length hbegins.parties
    simpa [hnone, parties_census, parties] using hparties
  · rintro before a after rfl i hi
    constructor
    · rintro hmem m remote date rfl
      exact not_mem_contactsOf_of_connect hi hmem
    · exact fun ha => mem_contactsOf_of_ne_connect ha hi
  · have hfresh : (bind address config supplies now).backlog n =
        .ofCapacity config.announcementCapacity := rfl
    have hkeeps : ((bind address config supplies now).backlog n).Keeps [] :=
      hfresh ▸ ⟨List.drop_nil.symm, (Nat.zero_sub _).symm⟩
    exact exists_pieces K n acts (congrArg Backlog.capacity hfresh)
      (Backlog.capacity_ofCapacity_pos config.announcementCapacity) hkeeps

/-- Somebody makes contact, the conversation is closed, they make contact again before it has been
cleaned up, and then the node talks to somebody else. -/
def returning : List Act :=
  opening :: (visiting ⟨.replicate 32 2⟩ (.custom [1]) ++
    ([.close 0] ++ visiting ⟨.replicate 32 2⟩ (.custom [1])))

def returned : Host :=
  ((attended.visit ⟨.replicate 32 2⟩ (.custom [1])).close 0).visit ⟨.replicate 32 2⟩ (.custom [1])

def talking : Act := .connect 0 ⟨⟨.replicate 32 3⟩, {}⟩ 100

theorem perform_returning : forgetful.perform .transparent returning = returned := by
  obtain ⟨hfirst, hsecond⟩ : attended.Idle 0 doorKey.shortId ∧
      ((attended.visit ⟨.replicate 32 2⟩ (.custom [1])).close 0).Idle 0 doorKey.shortId := by
    decide +kernel
  change attended.perform .transparent _ = _
  rw [perform_append, perform_append,
    perform_visiting hfirst (by decide) (by decide +kernel)]
  exact perform_visiting hsecond (by decide) (by decide +kernel)

/-- The second conversation is the live one and keeps its place when the first one is cleaned up. It
is the one announcement that is remembered, and the third has not been announced. -/
theorem one_live_conversation_returned :
    ∃ h, forgetful.perform .transparent (returning ++ [talking]) = h ∧
      (∃ c, h.conversations[1]? = some c ∧ c.isClosed = false) ∧
      (∃ node, (h.act .transparent (.run ⟨0, 100⟩ (.converse 0 .receive))).nodes[0]? = some node ∧
        node.peers.lookup (⟨.replicate 32 2⟩ : PublicKey).shortId = some 1) ∧
      forgetful.contactsOf .transparent 0 (returning ++ [talking]) = [0, 1] ∧
      2 ∉ forgetful.contactsOf .transparent 0 (returning ++ [talking]) ∧
      ∃ b, forgetful.found .transparent 0 (returning ++ [talking]) = [b] ∧ b.entries = [1] := by
  obtain ⟨hlive, hsecond, hthird⟩ :
      (returned.act .transparent talking).live? 0 (⟨.replicate 32 2⟩ : PublicKey).shortId = some 1 ∧
        returned.conversationsOf 0 = [0, 1] ∧
        2 ∈ returned.beginnings .transparent 0 talking := by
    decide +kernel
  have hperform : forgetful.perform .transparent (returning ++ [talking]) =
      returned.act .transparent talking := by
    rw [perform_append, perform_returning, perform_singleton]
  obtain ⟨hfound, -, hcleanup, -, -, hannounced⟩ := one_live_conversation .transparent ⟨.v4 1, 1⟩
    { announcementCapacity := 1, rateLimit := .disabled } (fun _ => .zeros) 0
    (returning ++ [talking]) rfl hperform
  obtain ⟨-, hcontacts, pieces, hpieces, hlooks⟩ := hannounced 0
  obtain ⟨c, hc, hopen, -, -⟩ := (hfound _ _ _).1 hlive
  obtain ⟨node, c', hn, hlookup, -, -⟩ := exists_open_of_live? hlive
  have hasked : ∀ a ∈ returning, a.special? ≠ some .seek := by
    simp [returning, opening, visiting, posted, Act.special?]
  have hcontactsOf : forgetful.contactsOf .transparent 0 (returning ++ [talking]) = [0, 1] := by
    rw [contactsOf_append, contactsOf_of_not_connect .transparent 0 hasked, perform_returning,
      hsecond]
    rfl
  have hlook : .look 0 ∉ returning ++ [talking] := by
    simp [returning, talking, opening, visiting, posted]
  have hlast := found_of_not_look .transparent 0 hlook forgetful
  refine ⟨_, hperform, ⟨c, hc, hopen⟩,
    hcleanup 0 node _ ⟨0, 100⟩ 0 1 .receive hn hlookup (by decide), hcontactsOf, ?_, _, hlast, ?_⟩
  · intro hmem
    exact (hcontacts returning talking [] rfl 2 (perform_returning ▸ hthird)).1 hmem _ _ _ rfl
  · change List.Forall₂ _ (forgetful.found .transparent 0 (returning ++ [talking])) pieces at hlooks
    rw [hlast] at hlooks
    cases hlooks with
    | @cons _ piece _ rest hkeeps hrest =>
      cases hrest
      rw [hkeeps.1.entries, hkeeps.2]
      have hpiece : piece = [0, 1] :=
        (List.append_nil piece).symm.trans (hpieces.trans hcontactsOf)
      rw [hpiece]
      decide +kernel

theorem input_late {c : Conversation} {channel : Channel} {d : Datagram} {rest : List Datagram}
    {data : Bytes} {p : Packet} (hc : h.conversations[i]? = some c)
    (hchannel : c.pair.channel = some channel) (hdeaf : c.isDeaf = false)
    (hroom : c.input.length < c.config.queueCapacity) (hinbox : c.inbox.datagrams = d :: rest)
    (hopens : Envelope.unlock channel.keys.decrypt d.payload = .ok data)
    (hdecode : Packet.decode data = .ok p) (K : KeyScheme) (now : Moment) :
    ∃ c', (h.act K (.late now i .unlock)).conversations[i]? = some c' ∧
      c'.isClosed = c.isClosed ∧ c'.input = c.input ++ [⟨p, d.source, true⟩] := by
  let t : Turn := { conversation := c, routes := h.routes }
  have hunlock : t.unlockLate.conversation.isClosed = c.isClosed ∧
      t.unlockLate.conversation.input = c.input ++ [⟨p, d.source, true⟩] := by
    let t' : Turn := { t with conversation := { c with
      pair := c.pair.markReady, inbox := { c.inbox with datagrams := rest } } }
    have hdatagram : ({ t with conversation := { c with
        inbox := { c.inbox with datagrams := rest } } } : Turn).unlockDatagram channel d =
          (true, t'.pass ⟨p, d.source, true⟩) := Turn.unlockDatagram_of_decode hdeaf hopens hdecode
    have hlate : t.unlockLate = t'.pass ⟨p, d.source, true⟩ := by
      simp only [Turn.unlockLate, t, hchannel, hinbox, hroom.not_ge, if_false]
      rw [hdatagram]
    rw [hlate, Turn.pass]
    split_ifs <;> exact ⟨rfl, rfl⟩
  refine ⟨t.unlockLate.conversation, ?_, hunlock⟩
  change (h.turn i fun t => t.unlockLate).conversations[i]? = _
  simp only [turn, hc]
  rw [conversations_foldl_absorb]
  exact List.getElem?_set_self (List.getElem?_eq_some_iff.1 hc).1

def contacting : List Act :=
  opening :: (visiting ⟨.replicate 32 2⟩ (.custom [1]) ++ visiting ⟨.replicate 32 3⟩ (.custom [1]))

def contacted : Host :=
  (attended.visit ⟨.replicate 32 2⟩ (.custom [1])).visit ⟨.replicate 32 3⟩ (.custom [1])

theorem perform_contacting : forgetful.perform .transparent contacting = contacted := by
  obtain ⟨hfirst, hsecond⟩ : attended.Idle 0 doorKey.shortId ∧
      (attended.visit ⟨.replicate 32 2⟩ (.custom [1])).Idle 0 doorKey.shortId := by
    decide +kernel
  change attended.perform .transparent _ = _
  rw [perform_append, perform_visiting hfirst (by decide) (by decide +kernel),
    perform_visiting hsecond (by decide) (by decide +kernel)]
  rfl

/-- A packet comes through the channel, and the conversation is closed. -/
def knocking : List Act :=
  [.arrive ⟨⟨.v4 2, 1⟩, tunnelKeys.inId.bytes.toList ++
    Envelope.lock tunnelKeys.decrypt ({} : Packet).encode⟩, .run ⟨0, 100⟩ .route] ++ [.close 0]

/-- Of two conversations that packets have begun, a node that keeps one announcement shows the
second only; and a closed conversation is given a packet that came through its channel. -/
theorem contact_lost_and_closed_reached :
    (forgetful.contactsOf .transparent 0 contacting = [0, 1] ∧
      ∃ b, forgetful.found .transparent 0 contacting = [b] ∧ b.entries = [1] ∧ b.lost = 1) ∧
    ∃ h c c', forgetful.perform .transparent (tunnelling ++ knocking) = h ∧
      h.conversations[0]? = some c ∧ c.isClosed = true ∧ c.input = [] ∧
      (h.act .transparent (.late ⟨0, 100⟩ 0 .unlock)).conversations[0]? = some c' ∧
      c'.isClosed = true ∧ c'.input = [⟨{}, ⟨.v4 2, 1⟩, true⟩] := by
  refine ⟨⟨?_, contacted.backlog 0, ?_, ?_⟩, ?_⟩
  · have hasked : ∀ a ∈ contacting, a.special? ≠ some .seek := by
      simp [contacting, opening, visiting, posted, Act.special?]
    rw [contactsOf_of_not_connect .transparent 0 hasked, perform_contacting]
    decide +kernel
  · have hlooks : .look 0 ∉ contacting := by
      simp [contacting, opening, visiting, posted]
    rw [found_of_not_look .transparent 0 hlooks, perform_contacting]
  · decide +kernel
  · have blank : ({} : Packet).WellFormed := {
      oneField := .inl rfl, senderAgrees := nofun, message := nofun, messages := nofun
      address := nofun, priorityAddress := nofun, signature := nofun
      rand1 := by decide, rand2 := by decide }
    obtain ⟨hquiet, c, hc, channel, hchannel, hkeys, hdeaf, hinput, hroom, hopen, hempty, hcapacity,
      hid, hfirst⟩ := quiet_tunnelled
    have hc : tunnelled.conversations[0]? = some c := hc
    let d : Datagram := ⟨⟨.v4 2, 1⟩, Envelope.lock tunnelKeys.decrypt ({} : Packet).encode⟩
    let waiting : Conversation := { c with inbox := { c.inbox with datagrams := [d] } }
    have hpush : c.inbox.push d = { c.inbox with datagrams := [d] } := by
      simp [Inbox.push, hopen, hempty, hcapacity]
    have hlength : idLength + d.payload.length ≤ maxDatagramLength := by
      rw [Envelope.length_lock]
      decide +kernel
    have hrouted := perform_sealed hquiet hid hfirst .transparent ⟨0, 100⟩ ⟨.v4 2, 1⟩ hlength
    let queued : Host := ({ tunnelled with conversations := tunnelled.conversations.modify 0 fun c =>
      { c with inbox := c.inbox.push d } } : Host).wake (.converse 0 .unlock)
    have hwaiting : queued.conversations[0]? = some waiting := by
      refine (getElem?_modify_of_some hc 0 _).trans ?_
      rw [if_pos rfl, hpush]
    obtain ⟨effects, hclose⟩ := queued.close_eq hwaiting
    have hclosed : (queued.close 0).conversations[0]? = some { waiting with isClosed := true } := by
      rw [hclose]
      exact List.getElem?_set_self (List.getElem?_eq_some_iff.1 hwaiting).1
    obtain ⟨c', hc', hstill, hlate⟩ := input_late hclosed hchannel hdeaf (hinput ▸ hroom) rfl
      (hkeys ▸ Envelope.unlock_lock _ _) (Reader.whole_of_reads (Packet.reads blank)) .transparent
      ⟨0, 100⟩
    refine ⟨queued.close 0, { waiting with isClosed := true }, c', ?_, hclosed, rfl, hinput, hc',
      hstill, hlate.trans (congrArg (· ++ _) hinput)⟩
    rw [perform_append, perform_tunnelling, knocking, perform_append, perform_singleton, act]
    exact congrArg (close · 0) hrouted

end Host

end Adnl
