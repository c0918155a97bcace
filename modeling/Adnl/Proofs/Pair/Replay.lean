import Adnl.Crypto.Curve25519
import Adnl.Proofs.Pair.Run

/-! # How often a packet is accepted

An epoch and a number that were accepted together are spent: either the peer has moved on to a later
epoch or the number is refused. Only a list that is dated after its own packet can bring a spent
packet in again, by starting over in the middle of the check.
-/
namespace Adnl

/-- The epoch and the number of a packet, unless its list claims a later epoch. -/
def Packet.epochNumber? (packet : Packet) : Option (Int32 × UInt64) :=
  match packet.reinitDates, packet.seqno with
  | some d, some n => if packet.address.all (·.reinitDate ≤ d.own) then some (d.own, n) else none
  | _, _ => none

namespace Pair

/-- A number of an epoch that cannot be accepted any more in that epoch. -/
def Spent (p : Pair) (date : Int32) (n : UInt64) : Prop :=
  date < p.peerReinitDate ∨ date = p.peerReinitDate ∧ p.received.Refuses n

theorem Spent.onward {p q : Pair} {date : Int32} {n : UInt64} (ht : p.received.Tracked)
    (hpq : p.intake.Onward q.intake) (h : p.Spent date n) : q.Spent date n := by
  have hle : p.peerReinitDate ≤ q.peerReinitDate := hpq.date_le
  rcases h with hlt | ⟨rfl, hn⟩
  · exact .inl (Int32.lt_of_lt_of_le hlt hle)
  · by_cases hd : q.peerReinitDate = p.peerReinitDate
    · exact .inr ⟨hd.symm, hpq.refuses ht hd n hn⟩
    · exact .inl (Int32.lt_of_le_of_ne hle (Ne.symm hd))

section
variable {K : KeyScheme} {p : Pair} {packet : Packet} {source : Address} {viaChannel : Bool}
  {now : Int32} {d : ReinitDates} {n : UInt64}

theorem le_peerReinitDate_screened (ht : p.Timely packet now) (hd : packet.reinitDates = some d) :
    d.own ≤ (p.screened packet now).peerReinitDate := by
  have hdated : (p.dated packet now).peerReinitDate = d.own := by
    rw [dated_of_timely ht hd]
    exact peerReinitDate_raise (ht d hd).2.1 (ht d hd).2.2
  rw [← hdated, screened, snd_screenLists]
  cases packet.address with
  | none => exact Int32.le_refl _
  | some l => exact (onward_raise _ l.reinitDate now).date_le

theorem screened_of_current (hd : packet.reinitDates = some d) (he : d.own = p.peerReinitDate) :
    p.screened packet now = packet.address.elim p fun l => p.raise l.reinitDate now := by
  have hdated : p.dated packet now = p := by
    apply dated_of_le
    intro d' hd'
    rw [hd, Option.some_inj] at hd'
    exact hd' ▸ Int32.le_of_eq he
  rw [screened, hdated, snd_screenLists]

theorem spent_of_accepted (ht : p.received.Tracked) (hd : packet.reinitDates = some d)
    (hn : packet.seqno = some n)
    (hok : (p.checkPacket K packet source viaChannel now).1 = .ok ()) :
    (p.checkPacket K packet source viaChannel now).2.Spent d.own n := by
  have hc := checkPacket_checked K p packet source viaChannel now
  generalize p.checkPacket K packet source viaChannel now = result at hc hok ⊢
  cases hc with
  | accepted _ htime _ _ =>
    have hts := (p.onward_screened packet now).tracked ht
    have hle := le_peerReinitDate_screened htime hd
    have hdeliver : ((p.screened packet now).deliver packet.seqno).2.Spent d.own n := by
      rw [hn]
      obtain ⟨seen, hr⟩ := hts
      by_cases he : d.own = (p.screened packet now).peerReinitDate
      · exact .inr ⟨he, hr.refuses_deliver_self⟩
      · exact .inl (Int32.lt_of_le_of_ne hle he)
    exact hdeliver.onward ((onward_deliver _ _).tracked hts) (intake_applyHeader .. ▸ .refl _)
  | _ => cases hok

theorem seqno_ne_zero_of_accepted (ht : p.received.Tracked) (hn : packet.seqno = some n)
    (hok : (p.checkPacket K packet source viaChannel now).1 = .ok ()) : n ≠ 0 := by
  obtain ⟨seen, hr⟩ := (p.onward_screened packet now).tracked ht
  have hu := ((checkPacket_ok_iff ..).1 hok).2.2.1
  exact (hr.not_refuses_iff.1 (hu n hn)).1

theorem not_spent_of_accepted (hd : packet.reinitDates = some d) (hn : packet.seqno = some n)
    (hlist : ∀ l, packet.address = some l → l.reinitDate ≤ d.own)
    (hok : (p.checkPacket K packet source viaChannel now).1 = .ok ()) : ¬ p.Spent d.own n := by
  obtain ⟨-, htime, hu, -⟩ := (checkPacket_ok_iff ..).1 hok
  rintro (hlt | ⟨he, href⟩)
  · exact Int32.not_lt.2 (htime d hd).2.2 hlt
  · have hdate : ∀ d', packet.reinitDates = some d' → d'.own ≤ p.peerReinitDate := by
      intro d' hd'
      rw [hd, Option.some_inj] at hd'
      exact hd' ▸ Int32.le_of_eq he
    rw [screened_of_le hdate (he ▸ hlist)] at hu
    exact hu n hn href

/-- What lets a spent packet in: the pair is still in the packet's epoch, the list is dated after
the packet but is not ahead of its time, and the packet confirms nothing. -/
structure Reopens (K : KeyScheme) (p : Pair) (packet : Packet) (date : Int32) (viaChannel : Bool)
    (now : Int32) : Prop where
  authentic : p.authenticate K packet viaChannel = .ok ()
  current : date = p.peerReinitDate
  known : date ≠ 0
  list : ∃ l, packet.address = some l ∧ date < l.reinitDate ∧ p.isFuture l.reinitDate now = false
  silent : ∀ c, packet.confirmSeqno = some c → c = 0

theorem not_refuses_raise_iff (ht : p.received.Tracked) (hzero : n ≠ 0)
    (href : p.received.Refuses n) (date now : Int32) :
    ¬ (p.raise date now).received.Refuses n ↔
      p.peerReinitDate ≠ 0 ∧ p.peerReinitDate < date ∧ p.isFuture date now = false := by
  by_cases hr : p.isFuture date now = false ∧ p.peerReinitDate < date
  · rw [raise_of_lt hr.1 hr.2]
    by_cases hz : p.peerReinitDate = 0
    · rw [reinit_of_eq_zero hz]
      simp [href, hz]
    · rw [(histories_reinit_of_ne_zero hz date now).1, ht.refuses_reset_iff]
      exact iff_of_true hzero ⟨hz, hr.2, hr.1⟩
  · rw [raise, if_neg hr]
    exact iff_of_false (fun h => h href) fun h => hr ⟨h.2.2, h.2.1⟩

/-- A refused number of the current epoch passes only if the list of its packet clears the window
on the way. -/
theorem unseen_screened_iff (ht : p.received.Tracked) (hd : packet.reinitDates = some d)
    (hn : packet.seqno = some n) (hzero : n ≠ 0) (he : d.own = p.peerReinitDate)
    (href : p.received.Refuses n) :
    (p.screened packet now).Unseen packet ↔ d.own ≠ 0 ∧
      ∃ l, packet.address = some l ∧ d.own < l.reinitDate ∧ p.isFuture l.reinitDate now = false := by
  have hunseen (q : Pair) : q.Unseen packet ↔ ¬ q.received.Refuses n := by
    simp [Unseen, hn]
  rw [screened_of_current hd he, hunseen, he]
  cases packet.address with
  | none => simp [href]
  | some l =>
    rw [Option.elim_some, not_refuses_raise_iff ht hzero href]
    simp only [Option.some_inj, exists_eq_left']

theorem accepted_iff_reopens (ht : p.received.Tracked) (hd : packet.reinitDates = some d)
    (hn : packet.seqno = some n) (hzero : n ≠ 0) (hown : d.receiver ≤ p.own.reinitDate)
    (hs : p.Spent d.own n) :
    (p.checkPacket K packet source viaChannel now).1 = .ok () ↔
      p.Reopens K packet d.own viaChannel now := by
  rw [checkPacket_ok_iff]
  have hsent (l : AddressList) (he : d.own = p.peerReinitDate) (hknown : d.own ≠ 0)
      (hl : packet.address = some l) (hlt : d.own < l.reinitDate)
      (hf : p.isFuture l.reinitDate now = false) : (p.screened packet now).sent.last = 0 := by
    rw [he] at hknown hlt
    rw [screened_of_current hd he, hl, Option.elim_some, raise_of_lt hf hlt,
      (histories_reinit_of_ne_zero hknown _ _).2]
    rfl
  constructor
  · rintro ⟨ha, htime, hu, hc⟩
    obtain ⟨he, href⟩ := hs.resolve_left (Int32.not_lt.2 (htime d hd).2.2)
    obtain ⟨hknown, l, hl, hlt, hf⟩ := (unseen_screened_iff ht hd hn hzero he href).1 hu
    refine ⟨ha, he, hknown, ⟨l, hl, hlt, hf⟩, fun c hconf => ?_⟩
    have hle := hc c hconf
    rw [hsent l he hknown hl hlt hf] at hle
    exact UInt64.le_zero_iff.1 hle
  · rintro ⟨ha, he, hknown, ⟨l, hl, hlt, hf⟩, hsilent⟩
    have href : p.received.Refuses n := by
      rcases hs with hback | ⟨-, href⟩
      · exact absurd (he ▸ hback) Int32.lt_irrefl
      · exact href
    refine ⟨ha, fun d' hd' => ?_, ?_, fun c hconf => ?_⟩
    · rw [hd, Option.some_inj] at hd'
      subst hd'
      exact ⟨hown, isFuture_of_le (Int32.le_of_lt hlt) hf, Int32.le_of_eq he.symm⟩
    · exact (unseen_screened_iff ht hd hn hzero he href).2 ⟨hknown, l, hl, hlt, hf⟩
    · rw [hsent l he hknown hl hlt hf, hsilent c hconf]
      exact UInt64.le_refl _

theorem lt_peerReinitDate_of_accepted (ht : p.received.Tracked) (hd : packet.reinitDates = some d)
    (hn : packet.seqno = some n) (hs : p.Spent d.own n)
    (hok : (p.checkPacket K packet source viaChannel now).1 = .ok ()) :
    d.own < (p.checkPacket K packet source viaChannel now).2.peerReinitDate := by
  have hzero := seqno_ne_zero_of_accepted ht hn hok
  obtain ⟨-, htime, hu, -⟩ := (checkPacket_ok_iff ..).1 hok
  obtain ⟨he, href⟩ := hs.resolve_left (Int32.not_lt.2 (htime d hd).2.2)
  obtain ⟨-, l, hl, hlt, hf⟩ := (unseen_screened_iff ht hd hn hzero he href).1 hu
  have hscreened : (p.screened packet now).peerReinitDate = l.reinitDate := by
    rw [screened_of_current hd he, hl]
    exact peerReinitDate_raise hf (he ▸ Int32.le_of_lt hlt)
  have hc := checkPacket_checked K p packet source viaChannel now
  generalize p.checkPacket K packet source viaChannel now = result at hc hok ⊢
  cases hc with
  | accepted =>
    have hsame := congrArg Intake.date (intake_applyHeader
      ((p.screened packet now).deliver packet.seqno).2 packet
      ((p.dated packet now).screenLists packet.address now).1 source)
    have hdeliver : ((p.screened packet now).deliver packet.seqno).2.peerReinitDate =
        (p.screened packet now).peerReinitDate := by
      rw [hn]
      rfl
    exact hlt.trans_eq (hscreened.symm.trans (hdeliver.symm.trans hsame.symm))
  | _ => cases hok

end

section
variable {K : KeyScheme} {p : Pair} {packet : Packet} {d : ReinitDates} {n : UInt64}

theorem taken?_eq_some {e : Event} (h : p.taken? K e = some packet) :
    ∃ source viaChannel now, e = .packet packet source viaChannel now ∧
      (p.checkPacket K packet source viaChannel now).1 = .ok () := by
  cases e with
  | packet packet' source viaChannel now =>
    simp only [taken?] at h
    split at h
    · cases h
      exact ⟨source, viaChannel, now, rfl, by assumption⟩
    · cases h
  | _ => cases h

theorem tracked_after (ht : p.received.Tracked) (e : Event) : (p.after K e).received.Tracked :=
  (p.onward_after K e).tracked ht

theorem spent_of_mem_accepted (hd : packet.reinitDates = some d) (hn : packet.seqno = some n)
    (ht : p.received.Tracked) {es : List Event} (h : packet ∈ p.accepted K es) :
    (p.run K es).Spent d.own n ∧ n ≠ 0 ∧ d.receiver ≤ p.own.reinitDate := by
  induction es generalizing p with
  | nil => cases h
  | cons e es ih =>
    have hafter := p.onward_after K e
    rw [accepted, List.mem_append, Option.mem_toList] at h
    rcases h with h | h
    · obtain ⟨source, viaChannel, now, rfl, hok⟩ := taken?_eq_some h
      have hspent := spent_of_accepted ht hd hn hok
      have htime := ((checkPacket_ok_iff ..).1 hok).2.1
      exact ⟨hspent.onward (tracked_after ht _) (onward_run _ K es),
        seqno_ne_zero_of_accepted ht hn hok, (htime d hd).1⟩
    · have hown : (p.after K e).own = p.own := hafter.own_eq
      rw [← hown]
      exact ih (tracked_after ht e) h

theorem epochNumber?_eq_some {x : Int32 × UInt64} (h : packet.epochNumber? = some x) :
    ∃ d, packet.reinitDates = some d ∧ x.1 = d.own ∧ packet.seqno = some x.2 ∧
      ∀ l, packet.address = some l → l.reinitDate ≤ d.own := by
  rw [Packet.epochNumber?] at h
  split at h
  · rename_i d n hd hn
    split_ifs at h with hl
    cases h
    refine ⟨d, hd, rfl, hn, fun l hlist => ?_⟩
    simpa [hlist] using hl
  · cases h

theorem epochNumbers_accepted (ht : p.received.Tracked) (es : List Event) :
    ((p.accepted K es).filterMap Packet.epochNumber?).Nodup ∧
      ∀ x ∈ (p.accepted K es).filterMap Packet.epochNumber?, ¬ p.Spent x.1 x.2 := by
  induction es generalizing p with
  | nil => simp [accepted]
  | cons e es ih =>
    obtain ⟨hnodup, hrest⟩ := ih (tracked_after ht e)
    have hlater : ∀ x ∈ ((p.after K e).accepted K es).filterMap Packet.epochNumber?,
        ¬ p.Spent x.1 x.2 :=
      fun x hx hs => hrest x hx (hs.onward ht (p.onward_after K e))
    rw [accepted]
    cases hq : p.taken? K e with
    | none => exact ⟨hnodup, hlater⟩
    | some packet =>
      rw [Option.toList_some, List.singleton_append, List.filterMap_cons]
      cases hx : packet.epochNumber? with
      | none => exact ⟨hnodup, hlater⟩
      | some x =>
        obtain ⟨source, viaChannel, now, rfl, hok⟩ := taken?_eq_some hq
        obtain ⟨d, hd, hown, hn, hlist⟩ := epochNumber?_eq_some hx
        have hbefore := not_spent_of_accepted hd hn hlist hok
        have hafter := spent_of_accepted ht hd hn hok
        rw [← hown] at hbefore hafter
        refine ⟨List.nodup_cons.2 ⟨fun hmem => hrest x hmem hafter, hnodup⟩, ?_⟩
        intro y hy
        rcases List.mem_cons.1 hy with rfl | hy
        · exact hbefore
        · exact hlater y hy

theorem accepted_append (K : KeyScheme) (p : Pair) (es fs : List Event) :
    p.accepted K (es ++ fs) = p.accepted K es ++ (p.run K es).accepted K fs := by
  induction es generalizing p with
  | nil => rfl
  | cons e es ih =>
    rw [List.cons_append, accepted, accepted, ih, List.append_assoc]
    rfl

theorem accepted_singleton (K : KeyScheme) (p : Pair) (e : Event) :
    p.accepted K [e] = (p.taken? K e).toList := by
  rw [accepted, accepted, List.append_nil]

theorem count_accepted (ht : p.received.Tracked) (hd : packet.reinitDates = some d)
    (hn : packet.seqno = some n) (es : List Event) :
    (p.accepted K es).count packet ≤ 2 ∧
      (p.Spent d.own n → (p.accepted K es).count packet ≤ 1) ∧
      (d.own < p.peerReinitDate → (p.accepted K es).count packet = 0) := by
  induction es generalizing p with
  | nil => simp [accepted]
  | cons e es ih =>
    obtain ⟨htwo, hone, hzero⟩ := ih (tracked_after ht e)
    have honward := p.onward_after K e
    by_cases hq : p.taken? K e = some packet
    · obtain ⟨source, viaChannel, now, rfl, hok⟩ := taken?_eq_some hq
      have htime := ((checkPacket_ok_iff ..).1 hok).2.1
      rw [accepted, hq, Option.toList_some, List.singleton_append, List.count_cons_self]
      refine ⟨?_, fun hs => ?_, fun hlt => ?_⟩
      · have := hone (spent_of_accepted ht hd hn hok)
        omega
      · have := hzero (lt_peerReinitDate_of_accepted ht hd hn hs hok)
        omega
      · exact absurd hlt (Int32.not_lt.2 (htime d hd).2.2)
    · have hcount : (p.accepted K (e :: es)).count packet =
          ((p.after K e).accepted K es).count packet := by
        rw [accepted, List.count_append]
        cases hq' : p.taken? K e with
        | none => simp
        | some packet' =>
          have hne : packet' ≠ packet := fun h => hq (h ▸ hq')
          simp [hne]
      rw [hcount]
      exact ⟨htwo, fun hs => hone (hs.onward ht honward),
        fun hlt => hzero (Int32.lt_of_lt_of_le hlt honward.date_le)⟩

/-- After it has been accepted, a packet is accepted again exactly when the pair is open to it. -/
theorem taken?_iff_reopens (ht : p.received.Tracked) (hd : packet.reinitDates = some d)
    (hn : packet.seqno = some n) {es : List Event} (h : packet ∈ p.accepted K es) (source : Address)
    (viaChannel : Bool) (now : Int32) :
    (p.run K es).taken? K (.packet packet source viaChannel now) = some packet ↔
      (p.run K es).Reopens K packet d.own viaChannel now := by
  obtain ⟨hspent, hzero, hown⟩ := spent_of_mem_accepted hd hn ht h
  have honward := p.onward_run K es
  have hsame : (p.run K es).own = p.own := honward.own_eq
  rw [← hsame] at hown
  have hopen : ((p.run K es).checkPacket K packet source viaChannel now).1 = .ok () ↔
      (p.run K es).Reopens K packet d.own viaChannel now :=
    accepted_iff_reopens (honward.tracked ht) hd hn hzero hown hspent
  rw [← hopen]
  constructor
  · intro hq
    obtain ⟨_, _, _, he, hok⟩ := taken?_eq_some hq
    cases he
    exact hok
  · intro hok
    rw [taken?, hok]

theorem one_lt_count_accepted_iff (ht : p.received.Tracked) (hd : packet.reinitDates = some d)
    (hn : packet.seqno = some n) (es : List Event) :
    1 < (p.accepted K es).count packet ↔
      ∃ es₁ source viaChannel now es₂, es = es₁ ++ .packet packet source viaChannel now :: es₂ ∧
        packet ∈ p.accepted K es₁ ∧
        (p.run K es₁).Reopens K packet d.own viaChannel now := by
  constructor
  · intro hmore
    induction es using List.reverseRecOn with
    | nil => simp [accepted] at hmore
    | append_singleton es e ih =>
      by_cases hbefore : 1 < (p.accepted K es).count packet
      · obtain ⟨es₁, source, viaChannel, now, es₂, rfl, hmem, hr⟩ := ih hbefore
        exact ⟨es₁, source, viaChannel, now, es₂ ++ [e], by simp, hmem, hr⟩
      · -- the last event brings the packet, and some earlier one has brought it before
        rw [accepted_append, List.count_append, accepted_singleton] at hmore
        have hlast : (p.run K es).taken? K e = some packet := by
          cases hq : (p.run K es).taken? K e with
          | none =>
            rw [hq] at hmore
            exact absurd hmore hbefore
          | some packet' =>
            by_contra hne
            have hne' : packet' ≠ packet := fun he => hne (he ▸ rfl)
            rw [hq, Option.toList_some, List.count_singleton, beq_false_of_ne hne'] at hmore
            exact hbefore hmore
        rw [hlast, Option.toList_some, List.count_singleton_self] at hmore
        have hmem : packet ∈ p.accepted K es :=
          List.count_pos_iff.1 (Nat.lt_of_succ_lt_succ hmore)
        obtain ⟨source, viaChannel, now, rfl, -⟩ := taken?_eq_some hlast
        exact ⟨es, source, viaChannel, now, [], rfl, hmem,
          (taken?_iff_reopens ht hd hn hmem source viaChannel now).1 hlast⟩
  · rintro ⟨es₁, source, viaChannel, now, es₂, rfl, hmem, hr⟩
    have hagain := (taken?_iff_reopens ht hd hn hmem source viaChannel now).2 hr
    have hfirst : 0 < (p.accepted K es₁).count packet := List.count_pos_iff.2 hmem
    rw [accepted_append, accepted, hagain, List.count_append, Option.toList_some,
      List.singleton_append, List.count_cons_self]
    omega

end

section
variable (K : KeyScheme) (own : LocalIdentity) (remote : Descriptor) (config : Config)
  (start : Int32) (supply : Supply) (es : List Event)

theorem tracked_new : (Pair.new own remote config start supply).received.Tracked :=
  History.tracked_receiver

/-- No epoch and number are accepted together twice, however often the pair has started over in
between. -/
theorem nodup_epochNumbers_accepted :
    (((Pair.new own remote config start supply).accepted K es).filterMap
      Packet.epochNumber?).Nodup :=
  (epochNumbers_accepted (tracked_new ..) es).1

/-- A packet is accepted at most twice, and a second time exactly when it is offered again while
its list can take the pair to a later epoch; so a packet whose list is not dated after its header is
accepted at most once. -/
theorem accepted_twice_iff {packet : Packet} {d : ReinitDates} {n : UInt64}
    (hd : packet.reinitDates = some d) (hn : packet.seqno = some n) :
    ((Pair.new own remote config start supply).accepted K es).count packet ≤ 2 ∧
      (1 < ((Pair.new own remote config start supply).accepted K es).count packet ↔
        ∃ es₁ source viaChannel now es₂, es = es₁ ++ .packet packet source viaChannel now :: es₂ ∧
          packet ∈ (Pair.new own remote config start supply).accepted K es₁ ∧
          ((Pair.new own remote config start supply).run K es₁).Reopens K packet d.own
            viaChannel now) ∧
      ((∀ l, packet.address = some l → l.reinitDate ≤ d.own) →
        ((Pair.new own remote config start supply).accepted K es).count packet ≤ 1) := by
  have ht : (Pair.new own remote config start supply).received.Tracked := tracked_new ..
  have htwice := one_lt_count_accepted_iff (K := K) ht hd hn es
  refine ⟨(count_accepted ht hd hn es).1, htwice, fun hlist => ?_⟩
  by_contra hmore
  obtain ⟨es₁, source, viaChannel, now, es₂, -, -, hr⟩ := htwice.1 (Nat.lt_of_not_le hmore)
  obtain ⟨l, hl, hlt, -⟩ := hr.list
  exact Int32.not_lt.2 (hlist l hl) hlt

end

/-- A packet of the epoch 100 with a list that is dated 200. -/
def listAhead : Packet :=
  { seqno := some 1, reinitDates := some ⟨100, 0⟩, address := some { reinitDate := 200 } }

def arrival (packet : Packet) (now : Int32) : Event := .packet packet ⟨.v4 0, 0⟩ true now

theorem accepted_twice_iff_listAhead :
    ∃ es₁ source viaChannel now es₂,
      [arrival listAhead 100, arrival listAhead 150] =
        es₁ ++ .packet listAhead source viaChannel now :: es₂ ∧
      listAhead ∈ blank.accepted ed25519 es₁ ∧
      (blank.run ed25519 es₁).Reopens ed25519 listAhead 100 viaChannel now := by
  have hmore : 1 < (blank.accepted ed25519
      [arrival listAhead 100, arrival listAhead 150]).count listAhead := by decide +kernel
  have hd : listAhead.reinitDates = some ⟨100, 0⟩ := rfl
  have hn : listAhead.seqno = some 1 := rfl
  exact (accepted_twice_iff ed25519 blank.own blank.remote {} 0 .zeros _ hd hn).2.1.1 hmore

/-- While the list is ahead of its time it is only left aside; once it is not, the same packet
comes in again. -/
theorem accepted_listAhead_twice :
    blank.accepted ed25519 [arrival listAhead 100, arrival listAhead 150] =
      [listAhead, listAhead] := by
  decide +kernel

end Pair

end Adnl
