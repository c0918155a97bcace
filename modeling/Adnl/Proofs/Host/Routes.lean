import Adnl.Proofs.Host.Letters

/-! # The routing table mirrors what is alive

Every entry of the table is owned by a node that has not been dropped or by the channel of a
conversation, and each of these owns one entry. Whatever frees an entry does so at the moment in
which its owner gives it up, and tickets are never given out twice, so an entry that has gone does
not come back. A receiving side that breaks down does not come to its end, and its channel stays.
-/
namespace Adnl

/-- No two entries have one id or one ticket, and every ticket has been given out. -/
structure RouteTable.Distinct (r : RouteTable) : Prop where
  ids : (r.entries.map Prod.fst).Nodup
  tickets : (r.entries.map (·.2.ticket)).Nodup
  fresh : ∀ e ∈ r.entries, e.2.ticket < r.issued

namespace RouteTable

variable {r r' : RouteTable} {e e' : Entry}

theorem Distinct.eq_of_id_eq (h : r.Distinct) (he : e ∈ r.entries) (he' : e' ∈ r.entries)
    (hid : e'.1 = e.1) : e' = e :=
  List.inj_on_of_nodup_map h.ids he' he hid

theorem Distinct.eq_of_ticket_eq (h : r.Distinct) (he : e ∈ r.entries) (he' : e' ∈ r.entries)
    (hticket : e'.2.ticket = e.2.ticket) : e' = e :=
  List.inj_on_of_nodup_map h.tickets he' he hticket

theorem Distinct.release (h : r.Distinct) (id : ShortId) (ticket : Nat) :
    (r.release id ticket).Distinct where
  ids := h.ids.sublist (List.filter_sublist.map _)
  tickets := h.tickets.sublist (List.filter_sublist.map _)
  fresh e he := h.fresh e (List.mem_of_mem_filter he)

theorem Distinct.discard (h : r.Distinct) (route? : Option Entry) :
    (r.discard route?).Distinct := by
  cases route? with
  | none => exact h
  | some e => exact h.release e.1 e.2.ticket

theorem Distinct.register (h : r.Distinct) {id : ShortId} {kind : RouteKind} {ticket : Nat}
    (hregister : r.register id kind = .ok (ticket, r')) : r'.Distinct := by
  have hfree : r.get? id = none := by
    rw [RouteTable.register] at hregister
    split at hregister
    · cases hregister
    · assumption
  obtain ⟨rfl, rfl⟩ := register_eq_ok hregister
  refine ⟨?_, ?_, fun e he => ?_⟩
  · refine List.nodup_cons.2 ⟨fun hid => ?_, h.ids⟩
    obtain ⟨e, he, hid⟩ := List.mem_map.1 hid
    exact absurd hid.symm (by simpa using List.lookup_eq_none_iff.1 hfree e he)
  · refine List.nodup_cons.2 ⟨fun hticket => ?_, h.tickets⟩
    obtain ⟨e, he, hticket⟩ := List.mem_map.1 hticket
    exact (h.fresh e he).ne hticket
  · obtain rfl | he := List.mem_cons.1 he
    · exact Nat.lt_succ_self _
    · exact (h.fresh e he).trans (Nat.lt_succ_self _)

theorem Distinct.mem_discard_iff (h : r.Distinct) {route? : Option Entry}
    (hmem : ∀ e, route? = some e → e ∈ r.entries) :
    e ∈ (r.discard route?).entries ↔ e ∈ r.entries ∧ route? ≠ some e := by
  rw [mem_discard]
  refine and_congr_right fun he => ?_
  constructor
  · rintro hkept rfl
    exact hkept e rfl ⟨rfl, rfl⟩
  · rintro hne e' rfl ⟨hid, -⟩
    exact hne (h.eq_of_id_eq he (hmem e' rfl) hid.symm ▸ rfl)

/-- The table goes on with an entry in the place of another one, or with one more or less. -/
structure Swaps (r : RouteTable) (before after : Option Entry) (r' : RouteTable) : Prop where
  distinct : r'.Distinct
  issued_le : r.issued ≤ r'.issued
  mem_iff : ∀ e, e ∈ r'.entries ↔ e ∈ r.entries ∧ before ≠ some e ∨ after = some e
  /-- What comes has a ticket that was not given out before. -/
  fresh : ∀ e, after = some e → before = some e ∨ r.issued ≤ e.2.ticket

section
variable (h : r.Distinct) {before : Option Entry} (hmem : ∀ e, before = some e → e ∈ r.entries)
include h hmem

theorem swaps_self : r.Swaps before before r := by
  refine ⟨h, Nat.le_refl _, fun e => ?_, fun _ => .inl⟩
  by_cases he : before = some e
  · simp [he, hmem e he]
  · simp [he]

theorem swaps_discard : r.Swaps before none (r.discard before) := by
  refine ⟨h.discard before, (r.issued_discard before).ge, fun e => ?_, by rintro _ ⟨⟩⟩
  simp [h.mem_discard_iff hmem]

theorem swaps_register {id : ShortId} {kind : RouteKind} {ticket : Nat}
    (hregister : (r.discard before).register id kind = .ok (ticket, r')) :
    r.Swaps before (some (id, ⟨kind, ticket⟩)) r' := by
  have hdistinct := (h.discard before).register hregister
  obtain ⟨rfl, rfl⟩ := register_eq_ok hregister
  refine ⟨hdistinct, ?_, fun e => ?_, ?_⟩
  · rw [issued_discard]
    exact Nat.le_succ _
  · rw [List.mem_cons, h.mem_discard_iff hmem, Option.some_inj, or_comm, eq_comm]
  · rintro _ ⟨⟩
    exact .inr (r.issued_discard before).ge

theorem swaps_giveUp {after : Option Entry} (hreroutes : r.Reroutes before after r') :
    r.Swaps before after (r'.giveUp before after) := by
  rw [r.giveUp_of_reroutes hreroutes fun e he => h.fresh e (hmem e he)]
  cases hreroutes with
  | kept => exact swaps_self h hmem
  | lost => exact swaps_discard h hmem
  | replaced hregister => exact swaps_register h hmem hregister

end

end RouteTable

/-! ## Owners -/

/-- Who may own an entry. -/
inductive Owner
  | node (n : Nat)
  | conversation (i : Nat)

def Seat.route? (seat : Seat) : Option Entry :=
  if seat.isDropped then none else some (seat.id, ⟨.localNode, seat.ticket⟩)

namespace Census

/-- The entry that an owner has registered and not given up. -/
def route? (c : Census) : Owner → Option Entry
  | .node n => c.seats[n]?.bind Seat.route?
  | .conversation i => c.standings[i]?.bind Standing.route?

/-- The table holds the entries of the owners, each of one owner. -/
structure Mirrored (c : Census) : Prop where
  distinct : c.routes.Distinct
  mem_iff : ∀ e, e ∈ c.routes.entries ↔ ∃ o, c.route? o = some e
  unique : ∀ o o' e, c.route? o = some e → c.route? o' = some e → o = o'
  /-- The ticket of a node has been given out, and goes with it. -/
  seats : ∀ seat ∈ c.seats, seat.ticket < c.routes.issued ∧
    (seat.isDropped → ∀ e ∈ c.routes.entries, e.2.ticket ≠ seat.ticket)

variable {s : Option Special} {c c' : Census}

/-- What becomes of the owners' entries: one that was not there before has a new ticket. -/
structure Inherits (c c' : Census) : Prop where
  issued_le : c.routes.issued ≤ c'.routes.issued
  route? : ∀ o e, c'.route? o = some e → c.routes.issued ≤ e.2.ticket ∨ c.route? o = some e

theorem Inherits.refl (c : Census) : c.Inherits c := ⟨Nat.le_refl _, fun _ _ => .inr⟩

theorem Inherits.trans {c'' : Census} (h : c.Inherits c') (h' : c'.Inherits c'') :
    c.Inherits c'' where
  issued_le := h.issued_le.trans h'.issued_le
  route? o e he := by
    obtain hnew | hold := h'.route? o e he
    · exact .inl (h.issued_le.trans hnew)
    · exact h.route? o e hold

/-- One owner has another entry, or none any more, or one for the first time. -/
structure Exchange (c c' : Census) (o : Owner) : Prop where
  swaps : c.routes.Swaps (c.route? o) (c'.route? o) c'.routes
  others : ∀ o' ≠ o, c'.route? o' = c.route? o'

namespace Exchange

variable {o : Owner}

theorem inherits (h : c.Exchange c' o) : c.Inherits c' where
  issued_le := h.swaps.issued_le
  route? o' e he := by
    by_cases ho : o' = o
    · subst ho
      exact (h.swaps.fresh e he).symm
    · exact .inr (h.others o' ho ▸ he)

/-- The owners that stay as they are keep their entries; the tickets of the nodes that have gone are
not used again. -/
theorem mirrored (h : c.Exchange c' o) (hc : c.Mirrored)
    (hseats : ∀ seat ∈ c'.seats, seat ∈ c.seats ∨ seat.ticket < c'.routes.issued ∧
      (seat.isDropped → ∀ e ∈ c'.routes.entries, e.2.ticket ≠ seat.ticket)) : c'.Mirrored where
  distinct := h.swaps.distinct
  mem_iff e := by
    rw [h.swaps.mem_iff]
    constructor
    · rintro (⟨he, hne⟩ | he)
      · obtain ⟨o', ho'⟩ := (hc.mem_iff e).1 he
        have hother : o' ≠ o := fun heq => hne (heq ▸ ho')
        exact ⟨o', (h.others o' hother).trans ho'⟩
      · exact ⟨o, he⟩
    · rintro ⟨o', ho'⟩
      by_cases hother : o' = o
      · exact .inr (hother ▸ ho')
      · rw [h.others o' hother] at ho'
        exact .inl ⟨(hc.mem_iff e).2 ⟨o', ho'⟩, fun ho => hother (hc.unique o' o e ho' ho)⟩
  unique := by
    -- Of two owners of one entry, neither can be the one that has changed.
    have hone {o' : Owner} {e : Entry} (ho' : o' ≠ o) (he : c'.route? o' = some e) :
        c'.route? o ≠ some e := by
      intro hown
      rw [h.others o' ho'] at he
      have hmem : e ∈ c.routes.entries := (hc.mem_iff e).2 ⟨o', he⟩
      obtain hold | hnew := h.swaps.fresh e hown
      · exact ho' (hc.unique o' o e he hold)
      · exact (hc.distinct.fresh e hmem).not_ge hnew
    intro o₁ o₂ e h₁ h₂
    by_cases ho₁ : o₁ = o
    · by_cases ho₂ : o₂ = o
      · exact ho₁.trans ho₂.symm
      · exact absurd (ho₁ ▸ h₁) (hone ho₂ h₂)
    · by_cases ho₂ : o₂ = o
      · exact absurd (ho₂ ▸ h₂) (hone ho₁ h₁)
      · exact hc.unique o₁ o₂ e (h.others o₁ ho₁ ▸ h₁) (h.others o₂ ho₂ ▸ h₂)
  seats seat hseat := by
    obtain hold | hnew := hseats seat hseat
    · obtain ⟨hlt, hdropped⟩ := hc.seats seat hold
      refine ⟨hlt.trans_le h.swaps.issued_le, fun hd e he => ?_⟩
      have hkept (he : e ∈ c.routes.entries) : e.2.ticket ≠ seat.ticket := hdropped hd e he
      obtain ⟨he, -⟩ | he := (h.swaps.mem_iff e).1 he
      · exact hkept he
      · obtain hbefore | hfresh := h.swaps.fresh e he
        · exact hkept ((hc.mem_iff e).2 ⟨o, hbefore⟩)
        · exact (hlt.trans_le hfresh).ne'
    · exact hnew

end Exchange

/-! ## What changes do to the owners -/

theorem route?_eq (hseats : c'.seats.map Seat.route? = c.seats.map Seat.route?)
    (hstandings : ∀ i : Nat, c'.standings[i]?.bind Standing.route? =
      c.standings[i]?.bind Standing.route?) : c'.route? = c.route? := by
  have hbind (seats : List Seat) (n : Nat) :
      seats[n]?.bind Seat.route? = ((seats.map Seat.route?)[n]?).join := by
    cases hn : seats[n]? <;> simp [hn]
  funext o
  cases o with
  | node n => rw [route?, route?, hbind, hbind, hseats]
  | conversation i => exact hstandings i

section
variable (h : c.Mirrored)
include h

theorem Mirrored.mem {o : Owner} : ∀ e, c.route? o = some e → e ∈ c.routes.entries :=
  fun e he => (h.mem_iff e).2 ⟨o, he⟩

theorem Mirrored.exchange_turned {i : Nat} {standing : Standing} {isOver : Bool} {o : Outlook}
    (hi : c.standings[i]? = some standing)
    {late : Prop} (hnext : Outlook.Next late ⟨standing, c.routes, isOver⟩ o) :
    c.Exchange { c with routes := o.routes, standings := c.standings.set i o.standing }
      (.conversation i) := by
  have hlt := (List.getElem?_eq_some_iff.1 hi).1
  have hbefore : c.route? (.conversation i) = standing.route? := by
    rw [route?, hi, Option.bind_some]
  have hmem := h.mem (o := .conversation i)
  rw [hbefore] at hmem
  constructor
  · rw [hbefore]
    simp only [route?, List.getElem?_set_self hlt, Option.bind_some]
    cases hnext with
    | rerouted _ hreroutes => exact RouteTable.swaps_giveUp h.distinct hmem hreroutes
    | ended => exact RouteTable.swaps_discard h.distinct hmem
    | vanished => exact RouteTable.swaps_discard h.distinct hmem
    | _ => exact RouteTable.swaps_self h.distinct hmem
  · rintro (n | j) hother
    · rfl
    · have hne : i ≠ j := fun heq => hother (heq ▸ rfl)
      simp only [route?, List.getElem?_set_ne hne]

theorem Mirrored.exchange_same (hroutes : c'.routes = c.routes) (hentry : c'.route? = c.route?)
    (o : Owner) : c.Exchange c' o := by
  refine ⟨?_, fun o' _ => congrFun hentry o'⟩
  rw [hroutes, hentry]
  exact RouteTable.swaps_self h.distinct h.mem

theorem Mirrored.exchange_added {id : ShortId} {ticket : Nat} {routes : RouteTable}
    {announced : Backlog Nat}
    (hregister : c.routes.register id .localNode = .ok (ticket, routes)) :
    c.Exchange { c with routes, seats := c.seats ++ [{ id, ticket, announced }] }
      (.node c.seats.length) := by
  have hbefore : c.route? (.node c.seats.length) = none := by
    simp [route?]
  constructor
  · have hafter : route? { c with routes, seats := c.seats ++ [{ id, ticket, announced }] }
        (.node c.seats.length) = some (id, ⟨.localNode, ticket⟩) := by
      simp [route?, Seat.route?]
    rw [hbefore, hafter]
    exact RouteTable.swaps_register h.distinct (by rintro _ ⟨⟩) hregister
  · rintro (n | i) hother
    · have hne : n ≠ c.seats.length := fun heq => hother (heq ▸ rfl)
      simp only [route?]
      rcases Nat.lt_or_gt_of_ne hne with hlt | hgt
      · rw [List.getElem?_append_left hlt]
      · rw [List.getElem?_eq_none (by simpa using hgt), List.getElem?_eq_none hgt.le]
    · rfl

theorem Mirrored.exchange_dropped {n : Nat} {seat : Seat} (hn : c.seats[n]? = some seat) :
    c.Exchange { c with
      routes := c.routes.release seat.id seat.ticket
      seats := c.seats.modify n Seat.drop } (.node n) := by
  have hbefore : c.route? (.node n) = seat.route? := by
    rw [route?, hn, Option.bind_some]
  constructor
  · have hafter : route? { c with
        routes := c.routes.release seat.id seat.ticket
        seats := c.seats.modify n Seat.drop } (.node n) = none := by
      simp [route?, hn, Seat.drop, Seat.route?]
    rw [hbefore, hafter]
    by_cases hdropped : seat.isDropped
    · -- The entry has gone already, and nobody else has got the ticket.
      have hother := (h.seats seat (List.mem_of_getElem? hn)).2 hdropped
      have hentries : (c.routes.release seat.id seat.ticket).entries = c.routes.entries :=
        List.filter_eq_self.2 fun e he => by simp [hother e he]
      have hsame : c.routes.release seat.id seat.ticket = c.routes :=
        congrArg (fun entries => { c.routes with entries }) hentries
      have hentry : seat.route? = none := if_pos hdropped
      rw [hsame, hentry]
      exact RouteTable.swaps_self h.distinct (by rintro _ ⟨⟩)
    · have hentry : seat.route? = some (seat.id, ⟨.localNode, seat.ticket⟩) := if_neg hdropped
      have hmem := h.mem (o := .node n)
      rw [hbefore] at hmem
      have hswaps := RouteTable.swaps_discard h.distinct hmem
      rw [hentry] at hswaps ⊢
      exact hswaps
  · rintro (m | i) hother
    · have hne : n ≠ m := fun heq => hother (heq ▸ rfl)
      simp only [route?, List.getElem?_modify, hne, if_false]
      exact congrArg (Option.bind · Seat.route?) (id_map c.seats[m]?)
    · rfl

/-- As long as a node is not dropped nothing that happens to it touches its entry. -/
theorem Mirrored.exchange_modify (n : Nat) (f : Seat → Seat)
    (hf : ∀ seat, (f seat).id = seat.id ∧ (f seat).ticket = seat.ticket ∧
      (f seat).isDropped = seat.isDropped)
    {standings : List Standing} (hstandings : ∀ i : Nat, standings[i]?.bind Standing.route? =
      c.standings[i]?.bind Standing.route?) :
    c.Exchange ⟨c.routes, c.seats.modify n f, standings, c.capacity⟩ (.node n) ∧
      ∀ seat ∈ c.seats.modify n f, seat ∈ c.seats ∨ seat.ticket < c.routes.issued ∧
        (seat.isDropped → ∀ e ∈ c.routes.entries, e.2.ticket ≠ seat.ticket) := by
  constructor
  · have hentry (seat : Seat) : (f seat).route? = seat.route? := by
      obtain ⟨hid, hticket, hdropped⟩ := hf seat
      simp only [Seat.route?, hid, hticket, hdropped]
    exact h.exchange_same (by rfl) (route?_eq (map_modify_of_eq hentry) hstandings) _
  · intro seat hseat
    obtain hold | ⟨seat', hseat', rfl⟩ := mem_modify hseat
    · exact .inl hold
    · obtain ⟨-, hticket, hdropped⟩ := hf seat'
      rw [hticket, hdropped]
      exact .inr (h.seats seat' (List.mem_of_getElem? hseat'))

theorem Mirrored.change (hs : s ≠ some .listen) (hchange : c.Change s c') :
    c'.Mirrored ∧ c.Inherits c' := by
  suffices hexchange : ∃ o, c.Exchange c' o ∧ ∀ seat ∈ c'.seats, seat ∈ c.seats ∨
      seat.ticket < c'.routes.issued ∧
        (seat.isDropped → ∀ e ∈ c'.routes.entries, e.2.ticket ≠ seat.ticket) by
    obtain ⟨o, hexchange, hseats⟩ := hexchange
    exact ⟨hexchange.mirrored h hseats, hexchange.inherits⟩
  cases hchange with
  | turned hi hnext => exact ⟨_, h.exchange_turned hi hnext, fun _ => .inl⟩
  | @forgot i standing =>
    exact ⟨_, h.exchange_modify _ (·.forget standing.parties.peer.shortId i)
      (fun _ => ⟨rfl, rfl, rfl⟩) fun _ => rfl⟩
  | @looked n => exact ⟨_, h.exchange_modify n Seat.look (fun _ => ⟨rfl, rfl, rfl⟩) fun _ => rfl⟩
  | @began n =>
    refine ⟨_, h.exchange_modify n _ (fun seat => ?_) fun i => ?_⟩
    · dsimp only
      split_ifs <;> exact ⟨rfl, rfl, rfl⟩
    · -- The new conversation has no channel.
      rcases Nat.lt_trichotomy i c.standings.length with hlt | rfl | hgt
      · rw [List.getElem?_append_left hlt]
      · simp
      · rw [List.getElem?_eq_none (by simpa using hgt), List.getElem?_eq_none hgt.le]
  | added hregister =>
    refine ⟨_, h.exchange_added hregister, fun seat hseat => ?_⟩
    obtain hold | hnew := List.mem_append.1 hseat
    · exact .inl hold
    · rw [List.mem_singleton.1 hnew]
      refine .inr ⟨?_, by rintro ⟨⟩⟩
      obtain ⟨rfl, rfl⟩ := RouteTable.register_eq_ok hregister
      exact Nat.lt_succ_self _
  | @dropped n seat hn =>
    have hexchange := h.exchange_dropped hn
    refine ⟨_, hexchange, fun seat' hseat' => ?_⟩
    obtain hold | ⟨seat'', hseat'', rfl⟩ := mem_modify hseat'
    · exact .inl hold
    · obtain rfl := Option.some.inj (hn.symm.trans hseat'')
      obtain ⟨hlt, hdropped⟩ := h.seats seat (List.mem_of_getElem? hn)
      refine .inr ⟨hlt, fun _ e he hticket => ?_⟩
      have hmem : e ∈ c.routes.entries := List.mem_of_mem_filter he
      by_cases hd : seat.isDropped
      · exact hdropped hd e hmem hticket
      · -- The entry was that of the node.
        have hown : c.route? (.node n) = some (seat.id, ⟨.localNode, seat.ticket⟩) := by
          rw [route?, hn, Option.bind_some]
          exact if_neg hd
        obtain rfl := h.distinct.eq_of_ticket_eq (h.mem _ hown) hmem hticket
        simp [RouteTable.release] at he
  | listened hlisten => exact absurd hlisten hs
  | unlistened hlisten => exact absurd hlisten hs

end

end Census

/-! ## Hosts -/

namespace Host

variable {h : Host} {i : Nat}

/-- The entry of a node that has not been dropped, or of the channel of a conversation. -/
def route? (h : Host) : Owner → Option Entry
  | .node n => h.nodes[n]?.bind fun node =>
    if node.isDropped then none else some (node.id, ⟨.localNode, node.ticket⟩)
  | .conversation i => h.conversations[i]?.bind fun c => c.pair.channel.map Channel.entry

/-- The entry of an owner, unless it is a conversation whose receiving side has ended. -/
def liveRoute? (h : Host) : Owner → Option Entry
  | .node n => h.route? (.node n)
  | .conversation i => h.conversations[i]?.bind fun c =>
    if c.isDeaf then none else c.pair.channel.map Channel.entry

theorem route?_of_liveRoute? {o : Owner} {e : Entry} (ho : h.liveRoute? o = some e) :
    h.route? o = some e := by
  cases o with
  | node n => exact ho
  | conversation i =>
    obtain ⟨c, hc, ho⟩ := Option.bind_eq_some_iff.1 ho
    rw [route?, hc, Option.bind_some]
    split_ifs at ho
    exact ho

theorem routes_census (h : Host) : h.census.routes = h.routes := rfl

theorem route?_census (h : Host) : h.census.route? = h.route? := by
  funext o
  cases o with
  | node n =>
    simp only [Census.route?, census, List.getElem?_map, route?]
    cases h.nodes[n]? <;> rfl
  | conversation i =>
    simp only [Census.route?, census, List.getElem?_map, route?]
    cases h.conversations[i]? <;> rfl

/-- The receiving side of a conversation would come to its end now. -/
def Finishes (K : KeyScheme) (h : Host) (now : Moment) (i : Nat) : Prop :=
  ∃ c, h.conversations[i]? = some c ∧
    .stopped ∈ (Turn.receive K now { conversation := c, routes := h.routes }).signals

theorem mirrored_bind (address : Address) (config : Config) (supplies : Nat → Supply) (now : Nat) :
    (bind address config supplies now).census.Mirrored where
  distinct := ⟨.nil, .nil, by rintro _ ⟨⟩⟩
  mem_iff e := by
    refine iff_of_false List.not_mem_nil ?_
    rintro ⟨n | i, ho⟩ <;> cases ho
  unique o := by
    rintro o' e ho
    cases o <;> cases ho
  seats := by rintro _ ⟨⟩

theorem mirrored_perform (K : KeyScheme) {acts : List Act}
    (hacts : ∀ a ∈ acts, a.special? ≠ some .listen) (hmirrored : h.census.Mirrored) :
    (h.perform K acts).census.Mirrored ∧ h.census.Inherits (h.perform K acts).census := by
  refine perform_induction (· ≠ some .listen)
    (P := fun c => c.Mirrored ∧ h.census.Inherits c) ?_ K hacts ⟨hmirrored, .refl _⟩
  rintro s c c' hs hchange ⟨hc, hinherits⟩
  obtain ⟨hc', hinherits'⟩ := hc.change hs hchange
  exact ⟨hc', hinherits.trans hinherits'⟩

theorem over_perform (K : KeyScheme) (acts : List Act) {c : Conversation}
    (hc : h.conversations[i]? = some c) (hover : c.standing.Over) :
    (h.perform K acts).route? (.conversation i) = none := by
  obtain ⟨c', hc', hover⟩ := stays_perform (fun _ => True)
    (fun _ _ _ _ hnext hover => hover.next hnext) K (fun a (_ : a ∈ acts) => trivial) hc hover
  rw [route?, hc']
  exact hover.route?

theorem route?_node (h : Host) (n : Nat) :
    h.route? (.node n) = ((h.census.seats.map Seat.route?)[n]?).join := by
  simp only [route?, census, List.getElem?_map]
  cases h.nodes[n]? <;> rfl

theorem route?_turn_of_ne (h : Host) (i : Nat) (f : Turn → Turn) {o : Owner}
    (ho : o ≠ .conversation i) : (h.turn i f).route? o = h.route? o := by
  cases o with
  | node n =>
    have hforget (seats : List Seat) (m : Nat) (remote : ShortId) :
        (seats.modify m (·.forget remote i)).map Seat.route? = seats.map Seat.route? :=
      map_modify_of_eq fun _ => rfl
    have hseats : (h.turn i f).census.seats.map Seat.route? = h.census.seats.map Seat.route? :=
      seats_turn (P := fun seats => seats.map Seat.route? = h.census.seats.map Seat.route?)
        (fun seats m remote => (hforget seats m remote).trans) h f rfl
    rw [route?_node, hseats, route?_node]
  | conversation j =>
    have hij : i ≠ j := fun heq => ho (heq ▸ rfl)
    rw [turn]
    split
    · rfl
    · rw [route?, conversations_foldl_absorb, List.getElem?_set_ne hij, route?]

/-- The table is about those who still receive exactly if nobody else has a channel. -/
theorem mem_iff_liveRoute? (hmirrored : h.census.Mirrored) :
    (∀ e, e ∈ h.routes.entries ↔ ∃ o, h.liveRoute? o = some e) ↔
      ∀ (i : Nat) (c : Conversation), h.conversations[i]? = some c → c.isDeaf = true →
        c.pair.channel = none := by
  have hmem (e : Entry) : e ∈ h.routes.entries ↔ ∃ o, h.route? o = some e :=
    h.route?_census ▸ hmirrored.mem_iff e
  constructor
  · intro hall i c hc hdeaf
    by_contra hchannel
    obtain ⟨channel, hchannel⟩ := Option.ne_none_iff_exists'.1 hchannel
    have hown : h.route? (.conversation i) = some channel.entry := by
      rw [route?, hc, Option.bind_some, hchannel, Option.map_some]
    obtain ⟨o, ho⟩ := (hall channel.entry).1 ((hmem _).2 ⟨_, hown⟩)
    have hlive := route?_of_liveRoute? ho
    rw [← route?_census] at hlive hown
    obtain rfl := hmirrored.unique _ _ _ hlive hown
    rw [liveRoute?, hc, Option.bind_some, if_pos hdeaf] at ho
    cases ho
  · intro hnone e
    rw [hmem e]
    refine exists_congr fun o => ⟨fun ho => ?_, route?_of_liveRoute?⟩
    cases o with
    | node n => exact ho
    | conversation i =>
      obtain ⟨c, hc, ho⟩ := Option.bind_eq_some_iff.1 ho
      rw [liveRoute?, hc, Option.bind_some, if_neg]
      · exact ho
      · intro hdeaf
        rw [hnone i c hc hdeaf] at ho
        cases ho

/-- A conversation whose receiving side has come to its end is over. -/
theorem Finishes.over {K : KeyScheme} {now : Moment} (hfinishes : h.Finishes K now i) :
    ∃ c, (h.act K (.run now (.converse i .receive))).conversations[i]? = some c ∧
      c.standing.Over := by
  obtain ⟨c, hc, hstopped⟩ := hfinishes
  let t : Turn := { conversation := c, routes := h.routes }
  have hlt := (List.getElem?_eq_some_iff.1 hc).1
  refine ⟨(t.receive K now).conversation, ?_, ?_⟩
  · change (h.turn i fun t => t.receive K now).conversations[i]? = _
    simp only [turn, hc]
    rw [conversations_foldl_absorb]
    exact List.getElem?_set_self hlt
  · have hproceeds : t.Proceeds False (t.receive K now) := t.proceeds_run K now .receive
    exact Outlook.over_of_isOver (o := t.outlook) (by rintro ⟨⟩) hproceeds
      (decide_eq_true hstopped)

/-- A node that is refused its id finds the id in the table, where it stays. -/
theorem get?_of_addNode_eq_error {K : KeyScheme} {options : NodeOptions} {date : Int32} {e : Error}
    (he : h.addNode K options date = .error e) :
    (h.act K (.addNode options date)) = h ∧
      ∃ id r, e = .idCollision id r.kind ∧ h.routes.get? id = some r := by
  refine ⟨?_, ?_⟩
  · rw [act, he]
    rfl
  · rw [addNode] at he
    split at he
    · next e' hregister =>
      cases he
      rw [RouteTable.register] at hregister
      split at hregister
      · next r hr =>
        cases hregister
        exact ⟨_, r, rfl, hr⟩
      · cases hregister
    · cases he

/-- After everything that can happen the table holds the entries of the nodes that have not been
dropped and of the channels that are installed, each of one owner. A refused registration and the
turns of other conversations leave an entry where it is. An entry that its owner has given up is not
found again, and a conversation whose receiving side has ended in order has none. One whose
receiving side has broken down may still have its channel, and the table the entry. -/
theorem routes_mirror_owners (K : KeyScheme) (address : Address) (config : Config)
    (supplies : Nat → Supply) (now : Nat) {acts : List Act}
    (hacts : ∀ a ∈ acts, a.special? ≠ some .listen) {h : Host}
    (hh : (bind address config supplies now).perform K acts = h) :
    (h.routes.entries.map Prod.fst).Nodup ∧
      (∀ e, e ∈ h.routes.entries ↔ ∃ o, h.route? o = some e) ∧
      ((∀ e, e ∈ h.routes.entries ↔ ∃ o, h.liveRoute? o = some e) ↔
        ∀ (i : Nat) (c : Conversation), h.conversations[i]? = some c → c.isDeaf = true →
          c.pair.channel = none) ∧
      (∀ o o' e e', h.route? o = some e → h.route? o' = some e' → e.1 = e'.1 → o = o') ∧
      (∀ options date e, h.addNode K options date = .error e →
        h.act K (.addNode options date) = h ∧
          ∃ id r, e = .idCollision id r.kind ∧ h.routes.get? id = some r) ∧
      (∀ now i task e, e ∈ h.routes.entries → h.route? (.conversation i) ≠ some e →
        e ∈ (h.act K (.run now (.converse i task))).routes.entries) ∧
      ∀ later : List Act, (∀ a ∈ later, a.special? ≠ some .listen) →
        (∀ o e, h.route? o = some e → (h.perform K later).route? o ≠ some e →
          e ∉ (h.perform K later).routes.entries) ∧
        ∀ now i, h.Finishes K now i →
          ((h.act K (.run now (.converse i .receive))).perform K later).route?
            (.conversation i) = none := by
  have hmirrored : h.census.Mirrored :=
    hh ▸ (mirrored_perform K hacts (mirrored_bind address config supplies now)).1
  have hmem (e : Entry) : e ∈ h.routes.entries ↔ ∃ o, h.route? o = some e :=
    h.route?_census ▸ hmirrored.mem_iff e
  refine ⟨hmirrored.distinct.ids, hmem, mem_iff_liveRoute? hmirrored,
    fun o o' e e' ho ho' hid => ?_, fun _ _ _ => get?_of_addNode_eq_error,
    fun now i task e he hother => ?_, fun later hlater => ?_⟩
  · obtain rfl := hmirrored.distinct.eq_of_id_eq ((hmem e).2 ⟨o, ho⟩) ((hmem e').2 ⟨o', ho'⟩)
      hid.symm
    rw [← route?_census] at ho ho'
    exact hmirrored.unique o o' _ ho ho'
  · have hact : ∀ a ∈ [Act.run now (.converse i task)], a.special? ≠ some .listen := by
      simp [Act.special?]
    obtain ⟨hnext, -⟩ := mirrored_perform K hact hmirrored
    obtain ⟨o, ho⟩ := (hmem e).1 he
    have hne : o ≠ .conversation i := fun heq => hother (heq ▸ ho)
    refine (hnext.mem_iff e).2 ⟨o, ?_⟩
    rw [route?_census]
    change (h.turn i fun t => t.run K now task).route? o = some e
    exact (h.route?_turn_of_ne i _ hne).trans ho
  · obtain ⟨hlast, hinherits⟩ := mirrored_perform K hlater hmirrored
    refine ⟨fun o e ho hgone he => ?_, fun now i hfinishes => ?_⟩
    · obtain ⟨o', ho'⟩ := (hlast.mem_iff e).1 he
      rw [← route?_census] at ho hgone
      obtain hnew | hold := hinherits.route? o' e ho'
      · exact (hmirrored.distinct.fresh e (hmirrored.mem e ho)).not_ge hnew
      · obtain rfl := hmirrored.unique o o' e ho hold
        exact hgone ho'
    · obtain ⟨c, hc, hover⟩ := hfinishes.over
      exact over_perform K later hc hover

/-- A closed conversation that has nothing left to do and listens comes to its end. -/
theorem finishes_of_isClosed (K : KeyScheme) (now : Moment) {c : Conversation}
    (hc : h.conversations[i]? = some c) (hdeaf : c.isDeaf = false)
    (hwaits : c.outbox.receiverWaits = false) (hwork : c.work = []) (hclosed : c.isClosed = true) :
    h.Finishes K now i := by
  refine ⟨c, hc, ?_⟩
  have hall : Turn.receiveAll K now { conversation := c, routes := h.routes } =
      Turn.finishReceiving { conversation := c, routes := h.routes } := by
    rw [Turn.receiveAll]
    simp only [hdeaf, hwaits, hclosed, Bool.or_self, Bool.false_eq_true, if_false, if_true]
    split
    · next heq => simp [hwork] at heq
    · rfl
  have hstopped (t : Turn) : .stopped ∈ t.finishReceiving.signals := by
    simp [Turn.finishReceiving, Turn.signal]
  simp only [Turn.receive, hall]
  split_ifs
  · exact List.mem_append_left _ (hstopped _)
  · exact hstopped _

def replacing : List Act :=
  visiting ⟨.replicate 32 2⟩ (.createChannel (.replicate 32 8) 101) ++
    [.run ⟨0, 100⟩ (.converse 0 .receive)]

def replaced : Host :=
  (tunnelled.visit ⟨.replicate 32 2⟩ (.createChannel (.replicate 32 8) 101)).turn 0
    (Turn.receiveFor .transparent ⟨0, 100⟩ 2)

theorem perform_replacing : tunnelled.perform .transparent replacing = replaced ∧
    (tunnelled.route? (.conversation 0)).isSome = true ∧
    (replaced.route? (.conversation 0)).isSome = true ∧
    replaced.route? (.conversation 0) ≠ tunnelled.route? (.conversation 0) ∧
    ((replaced.close 0).conversations[0]?.any fun c =>
      !c.isDeaf && !c.outbox.receiverWaits && c.work.isEmpty && c.isClosed) = true := by
  obtain ⟨hidle, hrest, hreplaced⟩ : tunnelled.Idle 0 doorKey.shortId ∧
      ((tunnelled.visit ⟨.replicate 32 2⟩
        (.createChannel (.replicate 32 8) 101)).conversations[0]?.all fun c =>
          ((Turn.receiveNext .transparent ⟨0, 100⟩)^[2] { conversation := c, routes :=
            (tunnelled.visit ⟨.replicate 32 2⟩ (.createChannel (.replicate 32 8) 101)).routes
              }).isAtRest) = true ∧
      (tunnelled.route? (.conversation 0)).isSome = true ∧
      (replaced.route? (.conversation 0)).isSome = true ∧
      replaced.route? (.conversation 0) ≠ tunnelled.route? (.conversation 0) ∧
      ((replaced.close 0).conversations[0]?.any fun c =>
        !c.isDeaf && !c.outbox.receiverWaits && c.work.isEmpty && c.isClosed) = true := by
    decide +kernel
  refine ⟨?_, hreplaced⟩
  rw [replacing, perform_append, perform_visiting hidle (by decide) (by decide +kernel),
    perform_singleton, act_receive hrest]
  rfl

/-- The entry of the first channel is there until the second one comes, and the entry of that until
the conversation has been closed and comes to its end. -/
theorem routes_mirror_owners_replaced :
    ∃ h e e', forgetful.perform .transparent tunnelling = h ∧
      h.route? (.conversation 0) = some e ∧ e ∈ h.routes.entries ∧
      (h.perform .transparent replacing).route? (.conversation 0) = some e' ∧
      e' ∈ (h.perform .transparent replacing).routes.entries ∧
      e ∉ (h.perform .transparent replacing).routes.entries ∧
      (h.perform .transparent (replacing ++ [.close 0])).Finishes .transparent ⟨0, 100⟩ 0 ∧
      ((h.perform .transparent (replacing ++ [.close 0])).act .transparent
        (.run ⟨0, 100⟩ (.converse 0 .receive))).route? (.conversation 0) = none := by
  obtain ⟨hreplacing, hsome, hsome', hne, hclosed⟩ := perform_replacing
  obtain ⟨e, he⟩ := Option.isSome_iff_exists.1 hsome
  obtain ⟨e', he'⟩ := Option.isSome_iff_exists.1 hsome'
  have hclosing : tunnelled.perform .transparent (replacing ++ [.close 0]) = replaced.close 0 := by
    rw [perform_append, hreplacing, perform_singleton, act]
  have hlistens {acts : List Act} (hacts : acts = tunnelling ∨ acts = replacing ∨
      acts = tunnelling ++ replacing ∨ acts = tunnelling ++ (replacing ++ [.close 0])) :
      ∀ a ∈ acts, a.special? ≠ some .listen := by
    rcases hacts with rfl | rfl | rfl | rfl <;>
      simp [tunnelling, replacing, opening, visiting, posted, Act.special?]
  have htwice : forgetful.perform .transparent (tunnelling ++ replacing) = replaced := by
    rw [perform_append, perform_tunnelling, hreplacing]
  have hthrice : forgetful.perform .transparent (tunnelling ++ (replacing ++ [.close 0])) =
      replaced.close 0 := by
    rw [perform_append, perform_tunnelling, hclosing]
  obtain ⟨-, hmem, -, -, -, -, hlater⟩ := routes_mirror_owners .transparent ⟨.v4 1, 1⟩
    { announcementCapacity := 1, rateLimit := .disabled } (fun _ => .zeros) 0
    (hlistens (.inl rfl)) perform_tunnelling
  obtain ⟨-, hmem', -, -, -, -, -⟩ := routes_mirror_owners .transparent ⟨.v4 1, 1⟩
    { announcementCapacity := 1, rateLimit := .disabled } (fun _ => .zeros) 0
    (hlistens (.inr (.inr (.inl rfl)))) htwice
  obtain ⟨-, -, -, -, -, -, hend⟩ := routes_mirror_owners .transparent ⟨.v4 1, 1⟩
    { announcementCapacity := 1, rateLimit := .disabled } (fun _ => .zeros) 0
    (hlistens (.inr (.inr (.inr rfl)))) hthrice
  obtain ⟨c, hc, hclosed⟩ := (Option.any_eq_true _ _).1 hclosed
  simp only [Bool.and_eq_true, Bool.not_eq_true', List.isEmpty_iff] at hclosed
  obtain ⟨⟨⟨hdeaf, hwaits⟩, hwork⟩, hclosed⟩ := hclosed
  have hfinishes := finishes_of_isClosed .transparent ⟨0, 100⟩ hc hdeaf hwaits hwork hclosed
  have hgone := (hlater replacing (hlistens (.inr (.inl rfl)))).1 (.conversation 0) e he
  rw [hreplacing] at hgone
  have hnone := (hend [] (by simp)).2 ⟨0, 100⟩ 0 hfinishes
  rw [perform_nil] at hnone
  refine ⟨tunnelled, e, e', perform_tunnelling, he, (hmem e).2 ⟨_, he⟩, ?_⟩
  rw [hreplacing, hclosing]
  exact ⟨he', (hmem' e').2 ⟨_, he'⟩, hgone (he ▸ hne), hfinishes, hnone⟩

/-- What cannot be read: a byte string of three bytes in the long form, and nothing behind it. -/
def unreadable : Bytes := [0xf5, 0x18, 0x48, 0x20, 0xfe, 0x03, 0, 0]

/-- A packet with a part that completes a message which cannot be read. -/
def breaking : List Act :=
  visiting ⟨.replicate 32 2⟩ (.part (sha256 unreadable) 8 0 unreadable) ++
    [.run ⟨0, 100⟩ (.converse 0 .receive)]

def broken : Host :=
  (tunnelled.visit ⟨.replicate 32 2⟩ (.part (sha256 unreadable) 8 0 unreadable)).turn 0
    (Turn.receiveFor .transparent ⟨0, 100⟩ 2)

theorem perform_breaking : tunnelled.perform .transparent breaking = broken ∧
    (broken.conversations[0]?.any fun c => c.isDeaf && c.pair.channel.isSome) = true := by
  obtain ⟨hidle, hrest, hbroken⟩ : tunnelled.Idle 0 doorKey.shortId ∧
      ((tunnelled.visit ⟨.replicate 32 2⟩
        (.part (sha256 unreadable) 8 0 unreadable)).conversations[0]?.all fun c =>
          ((Turn.receiveNext .transparent ⟨0, 100⟩)^[2] { conversation := c, routes :=
            (tunnelled.visit ⟨.replicate 32 2⟩ (.part (sha256 unreadable) 8 0 unreadable)).routes
              }).isAtRest) = true ∧
      (broken.conversations[0]?.any fun c => c.isDeaf && c.pair.channel.isSome) = true := by
    decide +kernel
  refine ⟨?_, hbroken⟩
  rw [breaking, perform_append, perform_visiting hidle (by decide) (by decide +kernel),
    perform_singleton, act_receive hrest]
  rfl

/-- The receiving side of the conversation has ended, and its channel is still in the table, though
it is not the channel of anybody who receives. -/
theorem broken_keeps_route :
    ∃ h c channel, forgetful.perform .transparent (tunnelling ++ breaking) = h ∧
      h.conversations[0]? = some c ∧ c.isDeaf = true ∧ c.pair.channel = some channel ∧
      channel.entry ∈ h.routes.entries ∧ ¬ ∃ o, h.liveRoute? o = some channel.entry := by
  obtain ⟨hbreaking, hbroken⟩ := perform_breaking
  have hperform : forgetful.perform .transparent (tunnelling ++ breaking) = broken := by
    rw [perform_append, perform_tunnelling, hbreaking]
  have hlistens : ∀ a ∈ tunnelling ++ breaking, a.special? ≠ some .listen := by
    simp [tunnelling, breaking, opening, visiting, posted, Act.special?]
  have hmirrored : broken.census.Mirrored := by
    rw [← hperform]
    exact (mirrored_perform .transparent hlistens (mirrored_bind _ _ _ _)).1
  obtain ⟨c, hc, hfacts⟩ := (Option.any_eq_true _ _).1 hbroken
  obtain ⟨hdeaf, hsome⟩ := Bool.and_eq_true_iff.1 hfacts
  obtain ⟨channel, hchannel⟩ := Option.isSome_iff_exists.1 hsome
  have hown : broken.census.route? (.conversation 0) = some channel.entry := by
    rw [route?_census, route?, hc, Option.bind_some, hchannel, Option.map_some]
  have hmem := hmirrored.mem _ hown
  rw [routes_census] at hmem
  refine ⟨broken, c, channel, hperform, hc, hdeaf, hchannel, hmem, ?_⟩
  rintro ⟨o, ho⟩
  have hlive : broken.census.route? o = some channel.entry := by
    rw [route?_census, route?_of_liveRoute? ho]
  obtain rfl := hmirrored.unique _ _ _ hlive hown
  rw [liveRoute?, hc, Option.bind_some, if_pos hdeaf] at ho
  cases ho

end Host

end Adnl
