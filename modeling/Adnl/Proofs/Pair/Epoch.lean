import Adnl.Proofs.Pair.Replay

/-! # The law of epochs

While the peer's date stays, a pair withdraws nothing: no refused number becomes acceptable, the
numbers issued only grow, the own channel key stays, and what was announced stays announced. A later
date of a peer that has been heard from withdraws all of it at once. One packet can bring two later
dates, in its header and in its list; each makes a stage of the check.
-/
namespace Adnl.Pair

/-- What `p` has refused, issued, drawn and announced still holds for `q`. -/
structure Retains (p q : Pair) : Prop where
  refuses : ∀ n, p.received.Refuses n → q.received.Refuses n
  last_le : p.sent.last ≤ q.sent.last
  channelSeed_eq : q.channelSeed = p.channelSeed
  channelDate_eq : q.channelDate = p.channelDate
  createSent : p.createSent → q.createSent

theorem Retains.refl (p : Pair) : p.Retains p where
  refuses _ := id
  last_le := UInt64.le_refl _
  channelSeed_eq := rfl
  channelDate_eq := rfl
  createSent := id

theorem Retains.trans {p q r : Pair} (hpq : p.Retains q) (hqr : q.Retains r) : p.Retains r where
  refuses n h := hqr.refuses n (hpq.refuses n h)
  last_le := UInt64.le_trans hpq.last_le hqr.last_le
  channelSeed_eq := hqr.channelSeed_eq.trans hpq.channelSeed_eq
  channelDate_eq := hqr.channelDate_eq.trans hpq.channelDate_eq
  createSent h := hqr.createSent (hpq.createSent h)

/-- Something that `p` stood by holds for `q` no more. -/
inductive Withdraws (p q : Pair) : Prop
  | number (n : UInt64) (hp : p.received.Refuses n) (hq : ¬ q.received.Refuses n)
  | counter (h : q.sent.last < p.sent.last)
  | key (h : q.channelSeed ≠ p.channelSeed)
  | keyDate (h : q.channelDate ≠ p.channelDate)
  | announcement (hp : p.createSent = true) (hq : q.createSent = false)

theorem Retains.not_withdraws {p q : Pair} (h : p.Retains q) : ¬ p.Withdraws q := by
  rintro (⟨n, hp, hq⟩ | hlast | hkey | hdate | ⟨hp, hq⟩)
  · exact hq (h.refuses n hp)
  · exact UInt64.not_lt.2 h.last_le hlast
  · exact hkey h.channelSeed_eq
  · exact hdate h.channelDate_eq
  · exact Bool.false_ne_true (hq.symm.trans (h.createSent hp))

section
variable (K : KeyScheme) (p : Pair)

theorem retains_deliver (ht : p.received.Tracked) (seqno : Option UInt64) :
    p.Retains (p.deliver seqno).2 := by
  obtain ⟨seen, hr⟩ := ht
  cases seqno with
  | none => exact .refl p
  | some n =>
    exact ⟨fun _ h => hr.refuses_deliver n h, UInt64.le_refl _, rfl, rfl, id⟩

theorem retains_applyHeader (packet : Packet) (l : Option AddressList) (source : Address) :
    p.Retains (p.applyHeader packet l source) := by
  obtain ⟨_, _, _, _, h⟩ := p.applyHeader_eq packet l source
  rw [h]
  exact ⟨fun _ => id, UInt64.le_refl _, rfl, rfl, id⟩

theorem retains_after {e : Event} (h : e.isInner) : p.Retains (p.after K e) := by
  cases e with
  | packet => cases h
  | date => cases h
  | list l =>
    obtain ⟨_, _, hl⟩ := p.updateList_eq l
    rw [after, hl]
    exact ⟨fun _ => id, UInt64.le_refl _, rfl, rfl, id⟩
  | create routes key date =>
    obtain ⟨_, hc⟩ := p.snd_onCreateChannel K routes key date
    rw [after, hc]
    exact ⟨fun _ => id, UInt64.le_refl _, rfl, rfl, id⟩
  | confirm routes key peerKey date =>
    obtain ⟨_, hc⟩ := p.snd_onConfirmChannel K routes key peerKey date
    rw [after, hc]
    exact ⟨fun _ => id, UInt64.le_refl _, rfl, rfl, id⟩
  | collect first queue =>
    rw [after, snd_collect]
    exact ⟨fun _ => id, UInt64.le_refl _, rfl, rfl, fun hc => by simp [hc]⟩
  | build messages => exact ⟨fun _ => id, le_saturatingAdd _ _, rfl, rfl, id⟩
  | route packet =>
    obtain ⟨_, hr⟩ := p.snd_route K packet
    rw [after, hr]
    exact ⟨fun _ => id, UInt64.le_refl _, rfl, rfl, id⟩
  | ready => exact ⟨fun _ => id, UInt64.le_refl _, rfl, rfl, id⟩
  | close => exact ⟨fun _ => id, UInt64.le_refl _, rfl, rfl, id⟩
  | part => exact ⟨fun _ => id, UInt64.le_refl _, rfl, rfl, id⟩
  | drawFill => exact ⟨fun _ => id, UInt64.le_refl _, rfl, rfl, id⟩

end

/-- The pair as a later date of a peer that has been heard from makes it. -/
def renewed (p : Pair) (date now : Int32) : Pair :=
  { p with
    peerReinitDate := date
    sent := .sender
    received := .receiver
    channelSeed := p.supply.drawKey.1
    channelDate := now
    channel := none
    createSent := false
    peerKnownVersion := none
    supply := p.supply.drawKey.2 }

/-- The sending side only counts, and the receiving side stands for some numbers. -/
structure Regular (p : Pair) : Prop where
  sent : p.sent.window = none
  received : p.received.Tracked

/-- A pair may become another, at the time `clock` shows: it withdraws something only for a later
date than one it knew, and then it is renewed altogether. -/
structure Lawful (clock : Option Int32) (p q : Pair) : Prop where
  date_le : p.peerReinitDate ≤ q.peerReinitDate
  withdraws : p.Withdraws q → p.peerReinitDate ≠ 0 ∧ p.peerReinitDate < q.peerReinitDate
  renewed : p.peerReinitDate ≠ 0 → p.peerReinitDate < q.peerReinitDate →
    ∃ now, clock = some now ∧ q = p.renewed q.peerReinitDate now

section
variable {p q : Pair}

theorem Retains.lawful (h : p.Retains q) (hd : q.peerReinitDate = p.peerReinitDate)
    (clock : Option Int32) : Lawful clock p q where
  date_le := Int32.le_of_eq hd.symm
  withdraws hw := absurd hw h.not_withdraws
  renewed _ hlt := absurd (hd ▸ hlt) Int32.lt_irrefl

namespace Regular

theorem reinit_eq_renewed (hp : p.Regular) (h : p.peerReinitDate ≠ 0) (date now : Int32) :
    p.reinit date now = p.renewed date now := by
  obtain ⟨seen, hr⟩ := hp.received
  obtain ⟨w, hw, -⟩ := hr.window
  have hsent : p.sent.reset = .sender := by rw [History.reset, hp.sent]; rfl
  have hreceived : p.received.reset = .receiver := by rw [History.reset, hw]; rfl
  rw [reinit, if_neg h, hsent, hreceived]
  rfl

theorem raise (hp : p.Regular) (date now : Int32) : (p.raise date now).Regular := by
  refine ⟨?_, (p.onward_raise date now).tracked hp.received⟩
  rw [Pair.raise]
  split_ifs
  · by_cases h : p.peerReinitDate = 0
    · rw [reinit_of_eq_zero h]
      exact hp.sent
    · rw [hp.reinit_eq_renewed h]
      rfl
  · exact hp.sent

theorem lawful_raise (hp : p.Regular) (date now : Int32) :
    Lawful (some now) p (p.raise date now) := by
  by_cases hr : p.isFuture date now = false ∧ p.peerReinitDate < date
  · rw [raise_of_lt hr.1 hr.2]
    have hlt : p.peerReinitDate < (p.reinit date now).peerReinitDate := by
      rw [peerReinitDate_reinit]
      exact hr.2
    by_cases h : p.peerReinitDate = 0
    · -- the first date that is heard is only remembered
      have hsame : p.Retains (p.reinit date now) := by
        rw [reinit_of_eq_zero h]
        exact ⟨fun _ => id, UInt64.le_refl _, rfl, rfl, id⟩
      exact ⟨Int32.le_of_lt hlt, fun hw => absurd hw hsame.not_withdraws,
        fun hne => absurd h hne⟩
    · refine ⟨Int32.le_of_lt hlt, fun _ => ⟨h, hlt⟩, fun _ _ => ⟨now, rfl, ?_⟩⟩
      rw [peerReinitDate_reinit, hp.reinit_eq_renewed h]
  · have hsame : p.raise date now = p := if_neg hr
    rw [hsame]
    exact (Retains.refl p).lawful rfl _

end Regular

end

def Event.clock? : Event → Option Int32
  | .packet _ _ _ now => some now
  | .date _ now => some now
  | _ => none

/-- When the peer started, as far as an event says so itself. -/
def Event.date? : Event → Option Int32
  | .packet header _ _ _ => header.reinitDates.map ReinitDates.own
  | .date start _ => some start
  | _ => none

/-- What a pair becomes on the way, before the end of an event: a packet from the peer whose dates
are in order can raise the epoch by its header, and again by its list. -/
def stages (K : KeyScheme) (p : Pair) : Event → List Pair
  | .packet packet _ viaChannel now =>
    match p.authenticate K packet viaChannel, (p.observeDates packet.reinitDates now).1 with
    | .ok (), .ok () => [p.dated packet now, p.screened packet now]
    | _, _ => []
  | _ => []

section
variable {K : KeyScheme} {p : Pair} {packet : Packet} {source : Address} {viaChannel : Bool}
  {now : Int32}

theorem checkPacket_eq_self (h : p.authenticate K packet viaChannel ≠ .ok () ∨
    ¬ p.Timely packet now) : (p.checkPacket K packet source viaChannel now).2 = p := by
  cases ha : p.authenticate K packet viaChannel with
  | error r => rw [checkPacket, ha]
  | ok _ =>
    have ht : ¬ p.Timely packet now := h.resolve_left fun hne => hne ha
    have hc := checkPacket_checked K p packet source viaChannel now
    generalize p.checkPacket K packet source viaChannel now = result at hc ⊢
    cases hc with
    | early => rfl
    | replayed _ ht' => exact absurd ht' ht
    | unsent _ ht' => exact absurd ht' ht
    | accepted _ ht' => exact absurd ht' ht

theorem stages_packet (ha : p.authenticate K packet viaChannel = .ok ())
    (ht : p.Timely packet now) : p.stages K (.packet packet source viaChannel now) =
      [p.dated packet now, p.screened packet now] := by
  rw [stages, ha, (observeDates_ok_iff p packet now).2 ht]

theorem stages_packet_eq_nil (h : p.authenticate K packet viaChannel ≠ .ok () ∨
    ¬ p.Timely packet now) : p.stages K (.packet packet source viaChannel now) = [] := by
  rw [stages]
  split
  · rename_i ha hd
    exact (h.elim (· ha) (· ((observeDates_ok_iff p packet now).1 hd))).elim
  · rfl

theorem retains_screened (ht : (p.screened packet now).received.Tracked)
    (ha : p.authenticate K packet viaChannel = .ok ()) (htime : p.Timely packet now)
    (source : Address) :
    (p.screened packet now).Retains (p.checkPacket K packet source viaChannel now).2 ∧
      (p.checkPacket K packet source viaChannel now).2.peerReinitDate =
        (p.screened packet now).peerReinitDate := by
  have hdeliver := retains_deliver (p.screened packet now) ht packet.seqno
  refine ⟨?_, ?_⟩
  · have hc := checkPacket_checked K p packet source viaChannel now
    generalize p.checkPacket K packet source viaChannel now = result at hc ⊢
    cases hc with
    | early _ _ h => exact (h.elim (· ha) (· htime)).elim
    | replayed => exact .refl _
    | unsent => exact hdeliver
    | accepted => exact hdeliver.trans (retains_applyHeader ..)
  · obtain ⟨_, _, _, _, _, hc⟩ := checkPacket_eq_of_timely ha htime source
    rw [hc]

namespace Regular

theorem dated (hp : p.Regular) (packet : Packet) (now : Int32) :
    (p.dated packet now).Regular ∧ Lawful (some now) p (p.dated packet now) := by
  obtain h | ⟨date, h⟩ := dated_eq p packet now
  · rw [h]
    exact ⟨hp, (Retains.refl p).lawful rfl _⟩
  · rw [h]
    exact ⟨hp.raise date now, hp.lawful_raise date now⟩

theorem screened (hp : p.Regular) (packet : Packet) (now : Int32) :
    (p.screened packet now).Regular ∧
      Lawful (some now) (p.dated packet now) (p.screened packet now) := by
  have hd := (hp.dated packet now).1
  rw [Pair.screened, snd_screenLists]
  cases packet.address with
  | none => exact ⟨hd, (Retains.refl _).lawful rfl _⟩
  | some l => exact ⟨hd.raise l.reinitDate now, hd.lawful_raise l.reinitDate now⟩

theorem after (hp : p.Regular) (K : KeyScheme) (e : Event) : (p.after K e).Regular := by
  refine ⟨?_, tracked_after hp.received e⟩
  have hinner (h : e.isInner) (hb : ∀ ms, e ≠ .build ms) : (p.after K e).sent.window = none := by
    rw [sent_after K p h hb]
    exact hp.sent
  cases e with
  | packet packet source viaChannel now =>
    rw [Pair.after]
    by_cases hpass : p.authenticate K packet viaChannel = .ok () ∧ p.Timely packet now
    · obtain ⟨_, _, _, _, _, hc⟩ := checkPacket_eq_of_timely hpass.1 hpass.2 source
      rw [hc]
      exact (hp.screened packet now).1.sent
    · rw [checkPacket_eq_self (not_and_or.1 hpass)]
      exact hp.sent
  | date date now =>
    rw [Pair.after, snd_observeDate]
    exact (hp.raise date now).sent
  | build ms => exact hp.sent
  | _ => exact hinner rfl fun ms h => Event.noConfusion h

/-- From stage to stage of an event a pair goes on lawfully. -/
theorem lawful_after (hp : p.Regular) (K : KeyScheme) (e : Event) :
    List.IsChain (Lawful e.clock?) (p :: (p.stages K e ++ [p.after K e])) := by
  have hinner (h : e.isInner) : Lawful e.clock? p (p.after K e) :=
    (p.retains_after K h).lawful (congrArg Intake.date (p.intake_after K h)) _
  cases e with
  | packet packet source viaChannel now =>
    by_cases h : p.authenticate K packet viaChannel = .ok () ∧ p.Timely packet now
    · obtain ⟨ha, ht⟩ := h
      have hd := (hp.dated packet now).2
      have hs := hp.screened packet now
      have hrest := retains_screened hs.1.received ha ht source
      rw [stages_packet ha ht]
      exact .cons_cons hd (.cons_cons hs.2 (.cons_cons (hrest.1.lawful hrest.2 _) (.singleton _)))
    · have hn : p.authenticate K packet viaChannel ≠ .ok () ∨ ¬ p.Timely packet now :=
        not_and_or.1 h
      rw [stages_packet_eq_nil hn, Pair.after, checkPacket_eq_self hn]
      exact .cons_cons ((Retains.refl p).lawful rfl _) (.singleton _)
  | date date now =>
    rw [Pair.after, snd_observeDate]
    exact .cons_cons (hp.lawful_raise date now) (.singleton _)
  | _ => exact .cons_cons (hinner rfl) (.singleton _)

end Regular

theorem regular_new (own : LocalIdentity) (remote : Descriptor) (config : Config) (start : Int32)
    (supply : Supply) : (Pair.new own remote config start supply).Regular where
  sent := rfl
  received := tracked_new ..

theorem Regular.run (hp : p.Regular) (K : KeyScheme) (es : List Event) : (p.run K es).Regular := by
  induction es generalizing p with
  | nil => exact hp
  | cons e es ih => exact ih (hp.after K e)

theorem after_eq_self_of_stale (K : KeyScheme) {e : Event} {date : Int32} (h : e.date? = some date)
    (hlt : date < p.peerReinitDate) : p.after K e = p := by
  cases e with
  | packet packet source viaChannel now =>
    obtain ⟨d, hd, rfl⟩ := Option.map_eq_some_iff.1 h
    exact checkPacket_eq_self (.inr fun ht => Int32.not_lt.2 (ht d hd).2.2 hlt)
  | date date' now =>
    cases h
    rw [after, snd_observeDate]
    exact raise_of_le (Int32.le_of_lt hlt) now
  | _ => cases h

/-- The number of an accepted packet is refused from there on. -/
theorem refuses_of_taken (ht : p.received.Tracked) {e : Event} {n : UInt64}
    (h : p.taken? K e = some packet) (hn : packet.seqno = some n) :
    (p.after K e).received.Refuses n := by
  obtain ⟨source, viaChannel, now, rfl, hok⟩ := taken?_eq_some h
  obtain ⟨seen, hr⟩ := (p.onward_screened packet now).tracked ht
  have hc := checkPacket_checked K p packet source viaChannel now
  rw [after]
  generalize p.checkPacket K packet source viaChannel now = result at hc hok ⊢
  cases hc with
  | accepted =>
    obtain ⟨_, _, _, _, happly⟩ := ((p.screened packet now).deliver packet.seqno).2.applyHeader_eq
      packet ((p.dated packet now).screenLists packet.address now).1 source
    have hself : ((p.screened packet now).deliver packet.seqno).2.received.Refuses n := by
      rw [hn]
      exact hr.refuses_deliver_self
    rw [happly]
    exact hself
  | _ => cases hok

/-- However a pair has come about, it goes from stage to stage lawfully, an event of an older date
leaves it as it is, and what it accepts it refuses from there on. -/
theorem epoch_law (K : KeyScheme) (own : LocalIdentity) (remote : Descriptor) (config : Config)
    (start : Int32) (supply : Supply) (es : List Event) {p : Pair}
    (hp : (Pair.new own remote config start supply).run K es = p) (e : Event) :
    List.IsChain (Lawful e.clock?) (p :: (p.stages K e ++ [p.after K e])) ∧
      (∀ date, e.date? = some date → date < p.peerReinitDate → p.after K e = p) ∧
      ∀ packet n, p.taken? K e = some packet → packet.seqno = some n →
        (p.after K e).received.Refuses n := by
  have hr : p.Regular := hp ▸ (regular_new own remote config start supply).run K es
  refine ⟨hr.lawful_after K e, ?_, ?_⟩
  · intro date hdate hlt
    exact after_eq_self_of_stale K hdate hlt
  · intro packet n htaken hn
    exact refuses_of_taken hr.received htaken hn

end

/-- The second time, the list of the packet starts the pair over in the middle of the check. -/
theorem epoch_law_listAhead :
    (blank.run ed25519 [arrival listAhead 100]).screened listAhead 150 =
      ((blank.run ed25519 [arrival listAhead 100]).dated listAhead 150).renewed 200 150 := by
  have hp : (Pair.new blank.own blank.remote {} 0 .zeros).run ed25519 [arrival listAhead 100] =
      blank.run ed25519 [arrival listAhead 100] := rfl
  have hchain := (epoch_law ed25519 blank.own blank.remote {} 0 .zeros [arrival listAhead 100] hp
    (arrival listAhead 150)).1
  have ha : (blank.run ed25519 [arrival listAhead 100]).authenticate ed25519 listAhead true =
      .ok () := by decide +kernel
  have ht : (blank.run ed25519 [arrival listAhead 100]).Timely listAhead 150 :=
    (observeDates_ok_iff ..).1 (by decide +kernel)
  rw [arrival, stages_packet ha ht] at hchain
  have hlaw := (List.isChain_cons_cons.1 (List.isChain_cons_cons.1 hchain).2).1
  have hdate : ((blank.run ed25519 [arrival listAhead 100]).screened listAhead 150).peerReinitDate =
      200 := by decide +kernel
  obtain ⟨now, hnow, heq⟩ := hlaw.renewed (by decide +kernel) (by decide +kernel)
  cases hnow
  rw [hdate] at heq
  exact heq

end Adnl.Pair
