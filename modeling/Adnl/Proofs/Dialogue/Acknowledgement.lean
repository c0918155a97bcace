import Adnl.Proofs.Dialogue.Restart
import Adnl.Proofs.Pair.Lists

/-! # What an acknowledged list is worth

An end leaves its list out of a packet when the version that it was told last is that of its list.
The other end acknowledges the list that it holds, and by its version only. So the one may have
started again, with another list of the same version, while the other one still holds the list from
before.
-/
namespace Adnl

/-- The header tells when the identity started, and a list in it is the identity's own. -/
structure SentPacket.From (own : LocalIdentity) (g : SentPacket) : Prop where
  date : ∃ receiver, g.packet.reinitDates = some ⟨own.reinitDate, receiver⟩
  address : ∀ l, g.packet.address = some l → l = own.addresses

namespace Arrival

/-- The packet was accepted, and in it was this list, from the start that the header tells of. -/
structure Brings (a : Arrival) (l : AddressList) : Prop where
  accepted : a.outcome = .ok ()
  address : a.sent.packet.address = some l
  date : a.sent.packet.reinitDates.map ReinitDates.own = some l.reinitDate

/-- The version that an accepted packet acknowledges. -/
def version? (a : Arrival) : Option Int32 :=
  if a.outcome = .ok () then a.sent.packet.knownVersion else none

end Arrival

def End.acknowledged (e : End) : Option Int32 := e.arrivals.findSome? Arrival.version?

def Pair.Event.told : Pair.Event → List AddressList
  | .list l => [l]
  | _ => []

def Move.told (t : Side) : Move → List AddressList
  | .act s event => if s = t then event.1.told else []
  | .arrive .. => []

theorem AddressList.edition_lt_of_date {l m : AddressList} (h : m.reinitDate < l.reinitDate) :
    m.edition < l.edition := by
  rw [← isNewerThan_iff, isNewerThan, decide_eq_true h, Bool.true_or]

namespace Pair

section
variable (K : KeyScheme) (p : Pair)

theorem reinitDates_build (ms : List Message) :
    (p.build K ms).1.reinitDates = some ⟨p.own.reinitDate, p.peerReinitDate⟩ := by
  obtain ⟨_, _, h⟩ := p.header.setMessages_eq ms
  obtain ⟨_, _, hopen⟩ := (p.openHeader K).setMessages_eq ms
  rw [fst_build, h, hopen]
  split_ifs <;> rfl

theorem address_build (ms : List Message) :
    (p.build K ms).1.address = if p.channelReady then none else p.offeredList := by
  obtain ⟨_, _, h⟩ := p.header.setMessages_eq ms
  obtain ⟨_, _, hopen⟩ := (p.openHeader K).setMessages_eq ms
  rw [fst_build, h, hopen]
  split_ifs <;> rfl

theorem from_build (ms : List Message) :
    (⟨(p.build K ms).1, p.channelReady⟩ : SentPacket).From p.own := by
  refine ⟨⟨_, p.reinitDates_build K ms⟩, fun l hl => ?_⟩
  change (p.build K ms).1.address = some l at hl
  rw [address_build] at hl
  split_ifs at hl
  exact offeredList_eq_some hl

end

section
variable {K : KeyScheme} {p : Pair} {packet : Packet} {source : Address} {viaChannel : Bool}
  {now date : Int32} {l : AddressList}

theorem le_edition_updateList (p : Pair) (l : AddressList) :
    l.edition ≤ (p.updateList l).remote.addresses.edition := by
  rw [updateList, Descriptor.update]
  split_ifs with hnew
  · exact le_refl _
  · exact not_lt.1 (mt AddressList.isNewerThan_iff.2 hnew)

theorem le_edition_adoptList (p : Pair) (l : AddressList) :
    l.edition ≤ (p.adoptList l).remote.addresses.edition := by
  rw [adoptList]
  split_ifs with hnew hsame
  · exact le_refl _
  · exact hsame ▸ le_refl _
  · exact not_lt.1 (mt AddressList.isNewerThan_iff.2 hnew)

theorem le_edition_after (K : KeyScheme) (p : Pair) (e : Event) :
    p.remote.addresses.edition ≤ (p.after K e).remote.addresses.edition := by
  obtain h | h := p.edition_after K e
  · rw [h]
  · exact h.le

/-- The list of an accepted packet, if it is from the start that the header tells of, is not newer
than the one that is stored from then on. -/
theorem le_edition_checkPacket (hok : (p.checkPacket K packet source viaChannel now).1 = .ok ())
    (hl : packet.address = some l)
    (hd : packet.reinitDates.map ReinitDates.own = some l.reinitDate) :
    l.edition ≤ (p.checkPacket K packet source viaChannel now).2.remote.addresses.edition := by
  obtain ⟨d, hdates, hsame⟩ := Option.map_eq_some_iff.1 hd
  have ht : p.Timely packet now := ((checkPacket_ok_iff ..).1 hok).2.1
  obtain ⟨-, hfuture, hle⟩ := ht d hdates
  have husable : ((p.dated packet now).screenList l now).1 = true := by
    rw [fst_screenList, isFuture_dated, dated_of_timely ht hdates, peerReinitDate_raise hfuture hle,
      ← hsame]
    exact ⟨hfuture, Int32.le_refl _⟩
  have hscreened : ((p.dated packet now).screenLists packet.address now).1 = some l := by
    rw [hl, screenLists]
    simp only [husable, if_true]
  rw [p.snd_checkPacket_of_ok K hok, hscreened]
  exact le_edition_adoptList _ l

theorem peerKnownVersion_raise (h : p.peerReinitDate = 0 ∨ p.peerReinitDate = date) :
    ((p.raise date now).peerReinitDate = 0 ∨ (p.raise date now).peerReinitDate = date) ∧
      (p.raise date now).peerKnownVersion = p.peerKnownVersion := by
  by_cases hr : p.isFuture date now = false ∧ p.peerReinitDate < date
  · have hzero : p.peerReinitDate = 0 := h.resolve_right fun he => Int32.lt_irrefl (he ▸ hr.2)
    rw [raise_of_lt hr.1 hr.2, reinit_of_eq_zero hzero]
    exact ⟨.inr rfl, rfl⟩
  · rw [raise, if_neg hr]
    exact ⟨h, rfl⟩

theorem peerKnownVersion_after (K : KeyScheme) (p : Pair) {e : Event} (h : e.isInner) :
    (p.after K e).peerKnownVersion = p.peerKnownVersion := by
  obtain ⟨_, _, _, _, _, _, _, he⟩ := p.after_eq K h
  rw [he]

theorem peerKnownVersion_applyHeader (p : Pair) (packet : Packet) (l : Option AddressList)
    (source : Address) : (p.applyHeader packet l source).peerKnownVersion =
      packet.knownVersion.or p.peerKnownVersion := by
  cases l with
  | none => rfl
  | some l =>
    obtain ⟨_, _, hl⟩ := p.adoptList_eq l
    rw [applyHeader, hl]

/-- In the peer's present epoch, what the peer knows is what its last accepted packet with an
acknowledgement said. -/
theorem peerKnownVersion_checkPacket {d : ReinitDates}
    (h : p.peerReinitDate = 0 ∨ p.peerReinitDate = d.own) (hd : packet.reinitDates = some d)
    (hl : ∀ l, packet.address = some l → l.reinitDate ≤ d.own) (K : KeyScheme) (source : Address)
    (viaChannel : Bool) (now : Int32) {result : Except PacketDrop Unit × Pair}
    (hresult : p.checkPacket K packet source viaChannel now = result) :
    (result.2.peerReinitDate = 0 ∨ result.2.peerReinitDate = d.own) ∧
      result.2.peerKnownVersion =
        (if result.1 = .ok () then packet.knownVersion else none).or p.peerKnownVersion := by
  have hc := checkPacket_checked K p packet source viaChannel now
  rw [hresult] at hc
  have hscreened (ht : p.Timely packet now) : ((p.screened packet now).peerReinitDate = 0 ∨
      (p.screened packet now).peerReinitDate = d.own) ∧
      (p.screened packet now).peerKnownVersion = p.peerKnownVersion := by
    rw [screened_of_dates ht hd hl]
    exact peerKnownVersion_raise h
  have hdeliver (ht : p.Timely packet now) :
      (((p.screened packet now).deliver packet.seqno).2.peerReinitDate = 0 ∨
        ((p.screened packet now).deliver packet.seqno).2.peerReinitDate = d.own) ∧
      ((p.screened packet now).deliver packet.seqno).2.peerKnownVersion = p.peerKnownVersion := by
    obtain ⟨_, hd⟩ := (p.screened packet now).snd_deliver packet.seqno
    rw [hd]
    exact hscreened ht
  cases hc with
  | early => exact ⟨h, rfl⟩
  | replayed _ ht => exact hscreened ht
  | unsent _ ht => exact hdeliver ht
  | accepted _ ht =>
    obtain ⟨hdate, hversion⟩ := hdeliver ht
    generalize ((p.screened packet now).deliver packet.seqno).2 = q at hdate hversion ⊢
    refine ⟨?_, ?_⟩
    · obtain ⟨_, _, _, _, happly⟩ := q.applyHeader_eq packet
        ((p.dated packet now).screenLists packet.address now).1 source
      rw [happly]
      exact hdate
    · rw [peerKnownVersion_applyHeader, if_pos rfl, hversion]

end

end Pair

namespace End

variable {K : KeyScheme} {own peer : LocalIdentity} {e : End} {told : List AddressList}
  {g : SentPacket} {i : Nat} {event : Pair.Event}

theorem mem_built_act (h : g ∈ (e.act K event).built) :
    g ∈ e.built ∨ ∃ ms, g = ⟨(e.pair.build K ms).1, e.pair.channelReady⟩ := by
  cases event with
  | build ms => exact (List.mem_append.1 h).imp_right fun hg => ⟨ms, List.mem_singleton.1 hg⟩
  | _ => exact .inl h

theorem acknowledged_receive (K : KeyScheme) (e : End) (i : Nat) (g : SentPacket)
    (source : Address) (now : Int32) : (e.receive K i g source now).acknowledged =
      (if (e.pair.checkPacket K g.packet source g.viaChannel now).1 = .ok ()
        then g.packet.knownVersion else none).or e.acknowledged := by
  have hcons (a : Arrival) (as : List Arrival) : (a :: as).findSome? Arrival.version? =
      a.version?.or (as.findSome? Arrival.version?) := by
    rw [List.findSome?_cons]
    cases a.version? <;> rfl
  exact hcons ⟨i, g, (e.pair.checkPacket K g.packet source g.viaChannel now).1⟩ e.arrivals

/-- An end counts on the version that was acknowledged last, and the lists in its packets are its
present one and earlier ones. -/
structure Announces (peer : LocalIdentity) (e : End) : Prop where
  list_le : e.pair.own.addresses.reinitDate ≤ e.pair.own.reinitDate
  date : e.pair.peerReinitDate = 0 ∨ e.pair.peerReinitDate = peer.reinitDate
  acknowledged : e.pair.peerKnownVersion = e.acknowledged
  lists : ∀ g ∈ e.built, ∀ l, g.packet.address = some l →
    (∃ d, g.packet.reinitDates = some d ∧ l.reinitDate ≤ d.own) ∧
      (l = e.pair.own.addresses ∨ l.reinitDate < e.pair.own.addresses.reinitDate)

theorem Announces.act (h : e.Announces peer) (hin : event.isInner) :
    (e.act K event).Announces peer := by
  have hown : (e.pair.after K event).own = e.pair.own := (e.pair.onward_after K event).own_eq
  have hdate : (e.pair.after K event).peerReinitDate = e.pair.peerReinitDate :=
    congrArg Pair.Intake.date (e.pair.intake_after K hin)
  constructor
  · change (e.pair.after K event).own.addresses.reinitDate ≤ (e.pair.after K event).own.reinitDate
    rw [hown]
    exact h.list_le
  · change (e.pair.after K event).peerReinitDate = 0 ∨
      (e.pair.after K event).peerReinitDate = peer.reinitDate
    rw [hdate]
    exact h.date
  · exact (e.pair.peerKnownVersion_after K hin).trans h.acknowledged
  · intro g hg l hl
    change _ ∧ (l = (e.pair.after K event).own.addresses ∨
      l.reinitDate < (e.pair.after K event).own.addresses.reinitDate)
    rw [hown]
    obtain hold | ⟨ms, rfl⟩ := mem_built_act hg
    · exact h.lists g hold l hl
    · have hfrom := e.pair.from_build K ms
      obtain ⟨receiver, hdates⟩ := hfrom.date
      obtain rfl := hfrom.address l hl
      exact ⟨⟨_, hdates, h.list_le⟩, .inl rfl⟩

theorem Announces.receive (h : e.Announces peer) (hg : g.From peer)
    (hpeer : peer.addresses.reinitDate ≤ peer.reinitDate) (source : Address) (now : Int32) :
    (e.receive K i g source now).Announces peer := by
  obtain ⟨receiver, hdates⟩ := hg.date
  have hown : (e.receive K i g source now).pair.own = e.pair.own :=
    (e.pair.onward_checkPacket K g.packet source g.viaChannel now).own_eq
  obtain ⟨hdate, hversion⟩ := Pair.peerKnownVersion_checkPacket h.date hdates
    (fun l hl => hg.address l hl ▸ hpeer) K source g.viaChannel now rfl
  constructor
  · rw [hown]
    exact h.list_le
  · exact hdate
  · rw [acknowledged_receive, ← h.acknowledged]
    exact hversion
  · rw [hown]
    exact h.lists

theorem Announces.restart (h : e.Announces peer) {Q : Party}
    (hlist : e.pair.own.addresses.reinitDate < Q.own.addresses.reinitDate) (key : PublicKey) :
    (⟨Q.pair key, e.built, []⟩ : End).Announces peer where
  list_le := Q.list_le
  date := .inl rfl
  acknowledged := rfl
  lists g hg l hl := by
    obtain ⟨hdates, hsame | hlt⟩ := h.lists g hg l hl
    · exact ⟨hdates, .inr (hsame ▸ hlist)⟩
    · exact ⟨hdates, .inr (Int32.lt_trans hlt hlist)⟩

/-- The list that an end has stored is as new as any that it was told of or that an accepted packet
has brought, and it is one of them. What the end acknowledges has been brought. -/
structure Keeps (own : LocalIdentity) (told : List AddressList) (e : End) : Prop where
  own_eq : e.pair.own = own
  built : ∀ g ∈ e.built, g.From own
  heard : ∀ l ∈ told, l.edition ≤ e.pair.remote.addresses.edition
  brought : ∀ a ∈ e.arrivals, ∀ l, a.Brings l → l.edition ≤ e.pair.remote.addresses.edition
  source : e.pair.remote.addresses ∈ told ∨ ∃ a ∈ e.arrivals, a.Brings e.pair.remote.addresses
  adopted : e.pair.listAdopted → ∃ a ∈ e.arrivals, a.Brings e.pair.remote.addresses
  acknowledges : ∀ g ∈ e.built, ∀ v, g.packet.knownVersion = some v →
    ∃ a ∈ e.arrivals, ∃ l, a.Brings l ∧ l.version = v

theorem Keeps.act (h : e.Keeps own told) (hin : event.isInner) :
    (e.act K event).Keeps own (event.told ++ told) := by
  have hown : (e.pair.after K event).own = e.pair.own := (e.pair.onward_after K event).own_eq
  have hle := e.pair.le_edition_after K event
  have hlearns := e.pair.learns_after K event
  refine ⟨hown.trans h.own_eq, fun g hg => ?_, fun l hl => ?_, fun a ha l hb => ?_, ?_, ?_,
    fun g hg v hv => ?_⟩
  · obtain hold | ⟨ms, rfl⟩ := mem_built_act hg
    · exact h.built g hold
    · exact h.own_eq ▸ e.pair.from_build K ms
  · obtain hnew | hold := List.mem_append.1 hl
    · cases event with
      | list m =>
        obtain rfl := List.mem_singleton.1 hnew
        exact e.pair.le_edition_updateList l
      | _ => cases hnew
    · exact (h.heard l hold).trans hle
  · exact (h.brought a ha l hb).trans hle
  · change (e.pair.after K event).whereabouts.addresses ∈ event.told ++ told ∨
      ∃ a ∈ e.arrivals, a.Brings (e.pair.after K event).whereabouts.addresses
    generalize (e.pair.after K event).whereabouts = w at hlearns ⊢
    cases hlearns with
    | nothing => exact h.source.imp_left (List.mem_append_right _)
    | told => exact .inl List.mem_cons_self
    | heard => cases hin
    | adopted => cases hin
  · change (e.pair.after K event).whereabouts.adopted →
      ∃ a ∈ e.arrivals, a.Brings (e.pair.after K event).whereabouts.addresses
    generalize (e.pair.after K event).whereabouts = w at hlearns ⊢
    cases hlearns with
    | nothing => exact h.adopted
    | told => rintro ⟨⟩
    | heard => cases hin
    | adopted => cases hin
  · obtain hold | ⟨ms, rfl⟩ := mem_built_act hg
    · exact h.acknowledges g hold v hv
    · change (e.pair.build K ms).1.knownVersion = some v at hv
      rw [Pair.knownVersion_build] at hv
      split_ifs at hv with hadopted
      obtain ⟨a, ha, hb⟩ := h.adopted hadopted
      exact ⟨a, ha, _, hb, Option.some.inj hv⟩

/-- A list that is taken over from a packet is from the start that its header tells of. -/
theorem date_of_learned {l : AddressList} {source : Address} {now : Int32} {p : Pair}
    (hok : (p.checkPacket K g.packet source g.viaChannel now).1 = .ok ())
    (hdates : ∃ d, g.packet.reinitDates = some d ∧
      ∀ m, g.packet.address = some m → m.reinitDate ≤ d.own)
    (hdate : (p.checkPacket K g.packet source g.viaChannel now).2.peerReinitDate = l.reinitDate) :
    g.packet.reinitDates.map ReinitDates.own = some l.reinitDate := by
  obtain ⟨d, hd, hlist⟩ := hdates
  have ht : p.Timely g.packet now := ((Pair.checkPacket_ok_iff ..).1 hok).2.1
  obtain ⟨-, hfuture, hle⟩ := ht d hd
  rw [p.peerReinitDate_checkPacket_of_ok K hok, Pair.screened_of_dates ht hd hlist,
    Pair.peerReinitDate_raise hfuture hle] at hdate
  rw [hd, Option.map_some, hdate]

theorem Keeps.receive (h : e.Keeps own told)
    (hg : ∀ l, g.packet.address = some l →
      ∃ d, g.packet.reinitDates = some d ∧ l.reinitDate ≤ d.own) (source : Address) (now : Int32) :
    (e.receive K i g source now).Keeps own told := by
  have hown : (e.receive K i g source now).pair.own = e.pair.own :=
    (e.pair.onward_checkPacket K g.packet source g.viaChannel now).own_eq
  have hle := e.pair.le_edition_after K (.packet g.packet source g.viaChannel now)
  have hlearns := e.pair.learns_packet K g.packet source g.viaChannel now
  have hmore {l : AddressList} (hl : ∃ a ∈ e.arrivals, a.Brings l) :
      ∃ a ∈ (e.receive K i g source now).arrivals, a.Brings l :=
    hl.imp fun a ha => ⟨List.mem_cons_of_mem _ ha.1, ha.2⟩
  have hlearned {l : AddressList}
      (htaken : e.pair.taken? K (.packet g.packet source g.viaChannel now) = some g.packet)
      (hl : g.packet.address = some l)
      (hdate : (e.pair.checkPacket K g.packet source g.viaChannel now).2.peerReinitDate =
        l.reinitDate) :
      ∃ a ∈ (e.receive K i g source now).arrivals, a.Brings l := by
    obtain ⟨_, _, _, hevent, hok⟩ := Pair.taken?_eq_some htaken
    cases hevent
    obtain ⟨d, hd, hdated⟩ := hg l hl
    refine ⟨_, List.mem_cons_self, hok, hl, date_of_learned hok ⟨d, hd, fun m hm => ?_⟩ hdate⟩
    obtain rfl := Option.some.inj (hl.symm.trans hm)
    exact hdated
  refine ⟨hown.trans h.own_eq, h.built, fun l hl => (h.heard l hl).trans hle, fun a ha l hb => ?_,
    ?_, ?_, fun b hb v hv => ?_⟩
  · obtain rfl | hold := List.mem_cons.1 ha
    · exact Pair.le_edition_checkPacket hb.accepted hb.address hb.date
    · exact (h.brought a hold l hb).trans hle
  · change (e.pair.checkPacket K g.packet source g.viaChannel now).2.whereabouts.addresses ∈ told ∨
      ∃ a ∈ (e.receive K i g source now).arrivals,
        a.Brings (e.pair.checkPacket K g.packet source g.viaChannel now).2.whereabouts.addresses
    generalize (e.pair.checkPacket K g.packet source g.viaChannel now).2.whereabouts = w
      at hlearns ⊢
    cases hlearns with
    | nothing => exact h.source.imp_right hmore
    | heard => exact h.source.imp_right hmore
    | adopted htaken hl _ hdate => exact .inr (hlearned htaken hl hdate)
  · change (e.pair.checkPacket K g.packet source g.viaChannel now).2.whereabouts.adopted →
      ∃ a ∈ (e.receive K i g source now).arrivals,
        a.Brings (e.pair.checkPacket K g.packet source g.viaChannel now).2.whereabouts.addresses
    generalize (e.pair.checkPacket K g.packet source g.viaChannel now).2.whereabouts = w
      at hlearns ⊢
    cases hlearns with
    | nothing => exact fun hadopted => hmore (h.adopted hadopted)
    | heard => exact fun hadopted => hmore (h.adopted hadopted)
    | adopted htaken hl _ hdate => exact fun _ => hlearned htaken hl hdate
  · obtain ⟨a, ha, hl⟩ := h.acknowledges b hb v hv
    exact ⟨a, List.mem_cons_of_mem _ ha, hl⟩

end End

namespace Dialogue

/-- A dialogue can be reached in which one end may have started again any number of times, each time
with a list that is dated later. The other end was told of some lists from elsewhere. -/
inductive Reached (K : KeyScheme) (P : Side → Party) (s : Side) : List AddressList → Dialogue → Prop
  | start : Reached K P s [(P s.other).known] (start K P)
  | moved {told : List AddressList} {d : Dialogue} (h : Reached K P s told d) (m : Move) :
    Reached K P s (m.told s.other ++ told) (d.step K m)
  | restarted {told : List AddressList} {d : Dialogue} (h : Reached K P s told d) (Q : Party)
    (hQ : Q.own.Succeeds (d s).pair.own)
    (hlist : (d s).pair.own.addresses.reinitDate < Q.own.addresses.reinitDate) :
    Reached K P s told (d.restart s Q)

/-- What the end `s` has told of its list, and what the other end knows of it. -/
structure Informed (P : Side → Party) (s : Side) (told : List AddressList) (d : Dialogue) :
    Prop where
  honest : d.Honest
  announces : (d s).Announces (P s.other).own
  keeps : (d s.other).Keeps (P s.other).own told

section
variable {K : KeyScheme} {P : Side → Party} {s : Side} {told : List AddressList} {d : Dialogue}

theorem informed_start : (start K P).Informed P s [(P s.other).known] where
  honest _ _ ha := by cases ha
  announces := ⟨(P s).list_le, .inl rfl, rfl, fun _ hg => by cases hg⟩
  keeps :=
    { own_eq := rfl
      built := fun _ hg => by cases hg
      heard := fun l hl => by rw [List.mem_singleton.1 hl]; exact le_refl _
      brought := fun _ ha => by cases ha
      source := .inl List.mem_cons_self
      adopted := by rintro ⟨⟩
      acknowledges := fun _ hg => by cases hg }

theorem Informed.step (h : d.Informed P s told) (m : Move) :
    (d.step K m).Informed P s (m.told s.other ++ told) := by
  have hhonest : (d.step K m).Honest := h.honest.stepped (stepped_step K d m)
  cases m with
  | act t event =>
    obtain rfl | rfl := Side.eq_or_eq_other s t
    · have hself : d.step K (.act t event) t = (d t).act K event := Function.update_self ..
      have hother : d.step K (.act t event) t.other = d t.other :=
        Function.update_of_ne t.other_ne ..
      have hnone : (Move.act t event).told t.other = [] := if_neg t.other_ne.symm
      exact ⟨hhonest, hself ▸ h.announces.act event.2, hother ▸ hnone ▸ h.keeps⟩
    · have hself : d.step K (.act s.other event) s = d s :=
        Function.update_of_ne s.other_ne.symm ..
      have hother : d.step K (.act s.other event) s.other = (d s.other).act K event :=
        Function.update_self ..
      have htold : (Move.act s.other event).told s.other = event.1.told := if_pos rfl
      exact ⟨hhonest, hself ▸ h.announces, hother ▸ htold ▸ h.keeps.act event.2⟩
  | arrive t i source now =>
    change (d.step K (.arrive t i source now)).Informed P s told
    cases hg : (d t.other).built[i]? with
    | none =>
      have hsame : d.step K (.arrive t i source now) = d := by simp only [Dialogue.step, hg]
      rw [hsame]
      exact h
    | some g =>
      have hstep : d.step K (.arrive t i source now) =
          Function.update d t ((d t).receive K i g source now) := by simp only [Dialogue.step, hg]
      have hmem : g ∈ (d t.other).built := List.mem_of_getElem? hg
      rw [hstep] at hhonest ⊢
      obtain rfl | rfl := Side.eq_or_eq_other s t
      · refine ⟨hhonest, ?_, ?_⟩
        · rw [Function.update_self]
          exact h.announces.receive (h.keeps.built g hmem) (P t.other).list_le source now
        · rw [Function.update_of_ne t.other_ne]
          exact h.keeps
      · rw [Side.other_other] at hmem
        refine ⟨hhonest, ?_, ?_⟩
        · rw [Function.update_of_ne s.other_ne.symm]
          exact h.announces
        · rw [Function.update_self]
          exact h.keeps.receive (fun l hl => (h.announces.lists g hmem l hl).1) source now

theorem Informed.restart (h : d.Informed P s told) {Q : Party}
    (hlist : (d s).pair.own.addresses.reinitDate < Q.own.addresses.reinitDate) :
    (d.restart s Q).Informed P s told where
  honest := h.honest.restart s Q
  announces := by
    rw [restart_self]
    exact h.announces.restart hlist _
  keeps := by
    rw [restart_other]
    exact h.keeps

theorem Reached.informed (h : Reached K P s told d) : d.Informed P s told := by
  induction h with
  | start => exact informed_start
  | moved _ m ih => exact ih.step m
  | restarted _ Q _ hlist ih => exact ih.restart hlist

theorem Informed.list_of_brings (h : d.Informed P s told) {a : Arrival} {l : AddressList}
    (ha : a ∈ (d s.other).arrivals) (hb : a.Brings l) :
    l = (d s).pair.own.addresses ∨ l.reinitDate < (d s).pair.own.addresses.reinitDate := by
  have hbuilt : a.sent ∈ (d s).built := List.mem_of_getElem? (h.honest.other s a ha)
  exact (h.announces.lists a.sent hbuilt l hb.address).2

/-- What an end has been acknowledged, the other end has been brought. -/
theorem Informed.brings_of_acknowledged (h : d.Informed P s told) {v : Int32}
    (hv : (d s).acknowledged = some v) :
    ∃ a ∈ (d s.other).arrivals, ∃ l, a.Brings l ∧ l.version = v := by
  obtain ⟨a, ha, hversion⟩ := List.exists_of_findSome?_eq_some hv
  have hbuilt : a.sent ∈ (d s.other).built := List.mem_of_getElem? (h.honest s a ha)
  rw [Arrival.version?] at hversion
  split_ifs at hversion
  exact h.keeps.acknowledges a.sent hbuilt v hversion

/-- The stored list is not older than the other end's own one exactly if that has been brought by an
accepted packet or the end has been told of one that is not older. -/
theorem Informed.current_iff (h : d.Informed P s told) :
    (d s).pair.own.addresses.isNewerThan (d s.other).pair.remote.addresses = false ↔
      (∃ a ∈ (d s.other).arrivals, a.Brings (d s).pair.own.addresses) ∨
        ∃ l ∈ told, (d s).pair.own.addresses.isNewerThan l = false := by
  simp only [Bool.eq_false_iff, ne_eq, AddressList.isNewerThan_iff, not_lt]
  constructor
  · intro hle
    obtain htold | ⟨a, ha, hb⟩ := h.keeps.source
    · exact .inr ⟨_, htold, hle⟩
    · obtain hsame | hlt := h.list_of_brings ha hb
      · exact .inl ⟨a, ha, hsame ▸ hb⟩
      · exact absurd (AddressList.edition_lt_of_date hlt) (not_lt.2 hle)
  · rintro (⟨a, ha, hb⟩ | ⟨l, hl, hle⟩)
    · exact h.keeps.brought a ha _ hb
    · exact hle.trans (h.keeps.heard l hl)

/-- Outside the channel an end leaves its list out exactly when the version acknowledged last is
that of the list. -/
theorem list_omitted_iff (h : Reached K P s told d) (hplain : (d s).pair.channelReady = false)
    (ms : List Message) :
    (((d s).pair.build K ms).1.address = none ↔
        (d s).acknowledged = some (d s).pair.own.addresses.version) ∧
      ((d s).pair.own.addresses.isNewerThan (d s.other).pair.remote.addresses = false ↔
        (∃ a ∈ (d s.other).arrivals, a.Brings (d s).pair.own.addresses) ∨
          ∃ l ∈ told, (d s).pair.own.addresses.isNewerThan l = false) ∧
      (((d s).pair.build K ms).1.address = none →
        (d s).pair.own.addresses.isNewerThan (d s.other).pair.remote.addresses →
          ∃ a ∈ (d s.other).arrivals, ∃ l, a.Brings l ∧
            l.version = (d s).pair.own.addresses.version ∧
            l.reinitDate < (d s).pair.own.addresses.reinitDate) := by
  have hinformed := h.informed
  have homitted : ((d s).pair.build K ms).1.address = none ↔
      (d s).acknowledged = some (d s).pair.own.addresses.version := by
    rw [Pair.address_build, hplain, if_neg Bool.false_ne_true, Pair.offeredList,
      ← hinformed.announces.acknowledged]
    split_ifs with hknown <;> simp [hknown]
  refine ⟨homitted, hinformed.current_iff, fun hnone hnewer => ?_⟩
  obtain ⟨a, ha, l, hb, hversion⟩ := hinformed.brings_of_acknowledged (homitted.1 hnone)
  obtain rfl | hlt := hinformed.list_of_brings ha hb
  · have hcurrent := hinformed.current_iff.2 (.inl ⟨a, ha, hb⟩)
    rw [hnewer] at hcurrent
    cases hcurrent
  · exact ⟨a, ha, l, hb, hversion, hlt⟩

end

/-- The right end starts again and its first packet is lost. Then an acknowledgement of the list
before arrives, which had the same version. -/
def misled : Dialogue :=
  (((start .transparent strangers).run .transparent
    [building .right, arriving .left 0, building .left]).restart .right newcomer).run .transparent
      [building .right, arriving .right 0]

theorem reached_misled : Reached .transparent strangers .right [{}] misled := by
  have hbefore := (((Reached.start (K := .transparent) (P := strangers) (s := .right)).moved
    (building .right)).moved (arriving .left 0)).moved (building .left)
  have hrestarted := hbefore.restarted newcomer ⟨rfl, by decide, by decide⟩ (by decide)
  exact (hrestarted.moved (building .right)).moved (arriving .right 0)

theorem misled_omits :
    (misled .right).pair.channelReady = false ∧
      ((misled .right).pair.build .transparent [.nop]).1.address = none ∧
      (misled .right).pair.own.addresses.isNewerThan (misled .left).pair.remote.addresses := by
  decide +kernel

theorem list_omitted_iff_misled :
    (misled .right).acknowledged = some (misled .right).pair.own.addresses.version ∧
      ∃ a ∈ (misled .left).arrivals, ∃ l, a.Brings l ∧
        l.version = (misled .right).pair.own.addresses.version ∧
        l.reinitDate < (misled .right).pair.own.addresses.reinitDate := by
  obtain ⟨hplain, hnone, hnewer⟩ := misled_omits
  obtain ⟨homitted, -, hearlier⟩ := list_omitted_iff reached_misled hplain [.nop]
  exact ⟨homitted.1 hnone, hearlier hnone hnewer⟩

/-- The list is left out while the other end has an older one. -/
theorem list_omitted_too_early :
    Reached .transparent strangers .right [{}] misled ∧
      (misled .right).pair.channelReady = false ∧
      ((misled .right).pair.build .transparent [.nop]).1.address = none ∧
      (misled .right).pair.own.addresses.isNewerThan (misled .left).pair.remote.addresses :=
  ⟨reached_misled, misled_omits⟩

end Dialogue

end Adnl
