import Adnl.Pair.Receive
import Adnl.Proofs.History.Log

/-! # What checking a packet can do

The date in a header and the date of a list raise the peer's epoch in the same way. A check ends in
one of four ways, each with the state that it leaves; the last refusal comes after the number has
been marked.
-/
namespace Adnl

namespace Pair

theorem isFuture_of_le {p : Pair} {a b now : Int32} (h : a ≤ b) (hb : p.isFuture b now = false) :
    p.isFuture a now = false := by
  rw [Int32.le_iff_toInt_le] at h
  simp only [isFuture, decide_eq_false_iff_not] at hb ⊢
  omega

@[simp] theorem peerReinitDate_reinit (p : Pair) (date now : Int32) :
    (p.reinit date now).peerReinitDate = date := by
  rw [reinit]
  split_ifs <;> rfl

theorem reinit_of_eq_zero {p : Pair} (h : p.peerReinitDate = 0) (date now : Int32) :
    p.reinit date now = { p with peerReinitDate := date } :=
  if_pos h

theorem histories_reinit_of_ne_zero {p : Pair} (h : p.peerReinitDate ≠ 0) (date now : Int32) :
    (p.reinit date now).received = p.received.reset ∧ (p.reinit date now).sent = p.sent.reset := by
  simp [reinit, h]

/-- Starts over for a date that is later than the known one and not too far ahead. -/
def raise (p : Pair) (date now : Int32) : Pair :=
  if p.isFuture date now = false ∧ p.peerReinitDate < date then p.reinit date now else p

theorem raise_of_lt {p : Pair} {date now : Int32} (hf : p.isFuture date now = false)
    (h : p.peerReinitDate < date) : p.raise date now = p.reinit date now :=
  if_pos ⟨hf, h⟩

theorem raise_of_le {p : Pair} {date : Int32} (h : date ≤ p.peerReinitDate) (now : Int32) :
    p.raise date now = p :=
  if_neg fun hr => Int32.not_lt.2 h hr.2

theorem peerReinitDate_raise {p : Pair} {date now : Int32} (hf : p.isFuture date now = false)
    (hle : p.peerReinitDate ≤ date) : (p.raise date now).peerReinitDate = date := by
  by_cases h : p.peerReinitDate < date
  · rw [raise_of_lt hf h, peerReinitDate_reinit]
  · have hback : date ≤ p.peerReinitDate := Int32.not_lt.1 h
    rw [raise_of_le hback]
    exact Int32.le_antisymm hle hback

theorem snd_observeDate (p : Pair) (date now : Int32) :
    (p.observeDate date now).2 = p.raise date now := by
  rw [observeDate, raise]
  by_cases hf : p.isFuture date now
  · simp [hf]
  · by_cases hs : date < p.peerReinitDate
    · have hr : ¬ p.peerReinitDate < date := fun hr => Int32.lt_irrefl (Int32.lt_trans hs hr)
      simp [hf, hs, hr]
    · by_cases hr : p.peerReinitDate < date <;> simp [hf, hs, hr]

theorem observeDate_ok_iff (p : Pair) (date now : Int32) :
    (p.observeDate date now).1 = .ok () ↔
      p.isFuture date now = false ∧ p.peerReinitDate ≤ date := by
  rw [observeDate]
  split_ifs with hf hs hr
  · simp [hf]
  · simp [hs]
  · simp [hf, Int32.not_lt.1 hs]
  · simp [hf, Int32.not_lt.1 hs]

theorem observeDate_of_error {p : Pair} {date now : Int32} {r : PacketDrop}
    (h : (p.observeDate date now).1 = .error r) : (p.observeDate date now).2 = p := by
  rw [observeDate] at h ⊢
  split_ifs at h ⊢ <;> simp_all

theorem snd_screenList (p : Pair) (l : AddressList) (now : Int32) :
    (p.screenList l now).2 = p.raise l.reinitDate now := by
  rw [screenList, raise]
  split_ifs <;> simp_all

def dated (p : Pair) (packet : Packet) (now : Int32) : Pair :=
  (p.observeDates packet.reinitDates now).2

def screened (p : Pair) (packet : Packet) (now : Int32) : Pair :=
  ((p.dated packet now).screenLists packet.address now).2

/-- The dates of the header are neither ahead of their time nor out of date. -/
def Timely (p : Pair) (packet : Packet) (now : Int32) : Prop :=
  ∀ d, packet.reinitDates = some d → d.receiver ≤ p.own.reinitDate ∧
    p.isFuture d.own now = false ∧ p.peerReinitDate ≤ d.own

/-- The number of the packet has not been refused. -/
def Unseen (p : Pair) (packet : Packet) : Prop :=
  ∀ n, packet.seqno = some n → ¬ p.received.Refuses n

def Confirms (p : Pair) (packet : Packet) : Prop :=
  ∀ c, packet.confirmSeqno = some c → c ≤ p.sent.last

theorem observeDates_ok_iff (p : Pair) (packet : Packet) (now : Int32) :
    (p.observeDates packet.reinitDates now).1 = .ok () ↔ p.Timely packet now := by
  unfold observeDates Timely
  cases packet.reinitDates with
  | none => simp
  | some d =>
    by_cases hr : p.own.reinitDate < d.receiver
    · simp [hr]
    · simp [hr, observeDate_ok_iff, Int32.not_lt.1 hr]

theorem observeDates_of_error {p : Pair} {packet : Packet} {now : Int32} {r : PacketDrop}
    (h : (p.observeDates packet.reinitDates now).1 = .error r) : p.dated packet now = p := by
  rw [dated]
  unfold observeDates at h ⊢
  cases hd : packet.reinitDates with
  | none => rfl
  | some d =>
    simp only [hd] at h ⊢
    split_ifs at h ⊢
    · rfl
    · exact observeDate_of_error h

theorem dated_of_timely {p : Pair} {packet : Packet} {now : Int32} {d : ReinitDates}
    (h : p.Timely packet now) (hd : packet.reinitDates = some d) :
    p.dated packet now = p.raise d.own now := by
  simp [dated, observeDates, hd, Int32.not_lt.2 (h d hd).1, snd_observeDate]

theorem dated_of_le {p : Pair} {packet : Packet} {now : Int32}
    (h : ∀ d, packet.reinitDates = some d → d.own ≤ p.peerReinitDate) :
    p.dated packet now = p := by
  unfold dated observeDates
  cases hd : packet.reinitDates with
  | none => rfl
  | some d =>
    simp only
    split_ifs
    · rfl
    · rw [snd_observeDate, raise_of_le (h d hd)]

theorem dated_eq (p : Pair) (packet : Packet) (now : Int32) :
    p.dated packet now = p ∨ ∃ date, p.dated packet now = p.raise date now := by
  unfold dated observeDates
  cases packet.reinitDates with
  | none => exact .inl rfl
  | some d =>
    simp only
    split_ifs
    · exact .inl rfl
    · exact .inr ⟨d.own, snd_observeDate p d.own now⟩

theorem snd_screenLists (p : Pair) (l : Option AddressList) (now : Int32) :
    (p.screenLists l now).2 = l.elim p fun l => p.raise l.reinitDate now := by
  cases l with
  | none => rfl
  | some l => exact snd_screenList p l now

theorem screened_of_le {p : Pair} {packet : Packet} {now : Int32}
    (hd : ∀ d, packet.reinitDates = some d → d.own ≤ p.peerReinitDate)
    (hl : ∀ l, packet.address = some l → l.reinitDate ≤ p.peerReinitDate) :
    p.screened packet now = p := by
  rw [screened, dated_of_le hd, snd_screenLists]
  cases h : packet.address with
  | none => rfl
  | some l => exact raise_of_le (hl l h) now

theorem screened_of_dates {p : Pair} {packet : Packet} {now : Int32} {d : ReinitDates}
    (ht : p.Timely packet now) (hd : packet.reinitDates = some d)
    (hl : ∀ l, packet.address = some l → l.reinitDate ≤ d.own) :
    p.screened packet now = p.raise d.own now := by
  obtain ⟨-, hf, hle⟩ := ht d hd
  rw [screened, dated_of_timely ht hd, snd_screenLists]
  cases haddress : packet.address with
  | none => rfl
  | some l =>
    have hlist : l.reinitDate ≤ (p.raise d.own now).peerReinitDate := by
      rw [peerReinitDate_raise hf hle]
      exact hl l haddress
    exact raise_of_le hlist now

theorem deliver_ok_iff (p : Pair) (packet : Packet) :
    (p.deliver packet.seqno).1 = .ok () ↔ p.Unseen packet := by
  unfold deliver Unseen History.Refuses
  cases packet.seqno with
  | none => simp
  | some n => cases h : (p.received.deliver n).1 <;> simp [h]

/-- The ways in which a check can end, with the state that each leaves. -/
inductive Checked (K : KeyScheme) (p : Pair) (packet : Packet) (source : Address)
    (viaChannel : Bool) (now : Int32) : Except PacketDrop Unit × Pair → Prop
  | early (r : PacketDrop) (hr : ∀ c s, r ≠ .unsentConfirm c s)
    (h : p.authenticate K packet viaChannel ≠ .ok () ∨ ¬ p.Timely packet now) :
    Checked K p packet source viaChannel now (.error r, p)
  | replayed (n : UInt64) (ht : p.Timely packet now) (hn : packet.seqno = some n)
    (hr : (p.screened packet now).received.Refuses n) :
    Checked K p packet source viaChannel now (.error (.replay n), p.screened packet now)
  | unsent (c : UInt64) (ht : p.Timely packet now) (hu : (p.screened packet now).Unseen packet)
    (hc : packet.confirmSeqno = some c) (hs : (p.screened packet now).sent.last < c) :
    Checked K p packet source viaChannel now
      (.error (.unsentConfirm c (p.screened packet now).sent.last),
        ((p.screened packet now).deliver packet.seqno).2)
  | accepted (ha : p.authenticate K packet viaChannel = .ok ()) (ht : p.Timely packet now)
    (hu : (p.screened packet now).Unseen packet) (hc : (p.screened packet now).Confirms packet) :
    Checked K p packet source viaChannel now
      (.ok (), ((p.screened packet now).deliver packet.seqno).2.applyHeader packet
        ((p.dated packet now).screenLists packet.address now).1 source)

theorem authenticate_ne_unsentConfirm {K : KeyScheme} {p : Pair} {packet : Packet}
    {viaChannel : Bool} {r : PacketDrop} (h : p.authenticate K packet viaChannel = .error r)
    (c s : UInt64) : r ≠ .unsentConfirm c s := by
  rintro rfl
  rw [authenticate] at h
  cases viaChannel <;> cases hv : packet.verify K p.remote.key <;>
    cases hs : packet.senderName <;> simp only [hv, hs] at h <;>
    split_ifs at h <;> cases h

theorem observeDates_ne_unsentConfirm {p : Pair} {packet : Packet} {now : Int32} {r : PacketDrop}
    (h : (p.observeDates packet.reinitDates now).1 = .error r) (c s : UInt64) :
    r ≠ .unsentConfirm c s := by
  rintro rfl
  unfold observeDates observeDate at h
  cases hd : packet.reinitDates with
  | none => simp [hd] at h
  | some d =>
    simp only [hd] at h
    split_ifs at h <;> cases h

theorem sent_deliver (p : Pair) (seqno : Option UInt64) : (p.deliver seqno).2.sent = p.sent := by
  cases seqno <;> rfl

theorem deliver_of_error {p : Pair} {packet : Packet} {r : PacketDrop}
    (h : (p.deliver packet.seqno).1 = .error r) :
    ∃ n, packet.seqno = some n ∧ p.received.Refuses n ∧ p.deliver packet.seqno =
      (.error (.replay n), p) := by
  cases hn : packet.seqno with
  | none => simp [hn, deliver] at h
  | some n =>
    have href : p.received.Refuses n := by
      by_contra hc
      have := (deliver_ok_iff p packet).2 fun m hm => by
        rw [hn, Option.some_inj] at hm
        exact hm ▸ hc
      rw [this] at h
      cases h
    exact ⟨n, rfl, href, by simp [deliver, History.deliver_eq_of_refuses href]⟩

theorem checkPacket_of_timely {K : KeyScheme} {p : Pair} {packet : Packet} {viaChannel : Bool}
    {now : Int32} (ha : p.authenticate K packet viaChannel = .ok ()) (ht : p.Timely packet now)
    (source : Address) :
    p.checkPacket K packet source viaChannel now =
      match (p.screened packet now).deliver packet.seqno with
      | (.error r, p) => (.error r, p)
      | (.ok (), p') =>
        match p'.checkConfirm packet.confirmSeqno with
        | .error r => (.error r, p')
        | .ok () =>
          (.ok (), p'.applyHeader packet ((p.dated packet now).screenLists packet.address now).1
            source) := by
  have hd : p.observeDates packet.reinitDates now = (.ok (), p.dated packet now) :=
    Prod.ext ((observeDates_ok_iff p packet now).2 ht) rfl
  rw [checkPacket]
  simp only [ha, hd]
  rfl

theorem checkPacket_checked (K : KeyScheme) (p : Pair) (packet : Packet) (source : Address)
    (viaChannel : Bool) (now : Int32) :
    Checked K p packet source viaChannel now (p.checkPacket K packet source viaChannel now) := by
  cases ha : p.authenticate K packet viaChannel with
  | error r =>
    simp only [checkPacket, ha]
    exact .early r (authenticate_ne_unsentConfirm ha) (.inl (by simp [ha]))
  | ok _ =>
    by_cases ht : p.Timely packet now
    · rw [checkPacket_of_timely ha ht]
      cases hn : ((p.screened packet now).deliver packet.seqno).1 with
      | error r =>
        obtain ⟨n, hseqno, href, he⟩ := deliver_of_error hn
        rw [he]
        exact .replayed n ht hseqno href
      | ok _ =>
        have hu := (deliver_ok_iff _ _).1 hn
        have he : (p.screened packet now).deliver packet.seqno =
          (.ok (), ((p.screened packet now).deliver packet.seqno).2) := Prod.ext hn rfl
        have hsent := sent_deliver (p.screened packet now) packet.seqno
        rw [he]
        cases hc : packet.confirmSeqno with
        | none => exact .accepted ha ht hu (by simp [Confirms, hc])
        | some c =>
          by_cases hs : (p.screened packet now).sent.last < c
          · simp only [checkConfirm, hsent, hs, if_true]
            exact .unsent c ht hu hc hs
          · simp only [checkConfirm, hsent, hs, if_false]
            refine .accepted ha ht hu fun m hm => ?_
            rw [hc, Option.some_inj] at hm
            exact hm ▸ UInt64.not_lt.1 hs
    · cases hd : (p.observeDates packet.reinitDates now).1 with
      | ok _ => exact absurd ((observeDates_ok_iff p packet now).1 hd) ht
      | error r =>
        have he : p.observeDates packet.reinitDates now = (.error r, p) :=
          Prod.ext hd (observeDates_of_error hd)
        simp only [checkPacket, ha, he]
        exact .early r (observeDates_ne_unsentConfirm hd) (.inr ht)

theorem checkPacket_ok_iff (K : KeyScheme) (p : Pair) (packet : Packet) (source : Address)
    (viaChannel : Bool) (now : Int32) :
    (p.checkPacket K packet source viaChannel now).1 = .ok () ↔
      p.authenticate K packet viaChannel = .ok () ∧ p.Timely packet now ∧
        (p.screened packet now).Unseen packet ∧ (p.screened packet now).Confirms packet := by
  have hc := checkPacket_checked K p packet source viaChannel now
  constructor
  · intro hok
    generalize p.checkPacket K packet source viaChannel now = result at hc hok
    cases hc with
    | accepted ha ht hu hc => exact ⟨ha, ht, hu, hc⟩
    | _ => cases hok
  · rintro ⟨ha, ht, hu, hconf⟩
    generalize p.checkPacket K packet source viaChannel now = result at hc ⊢
    cases hc with
    | early r hr h => exact (h.elim (· ha) (· ht)).elim
    | replayed n _ hn hr => exact (hu n hn hr).elim
    | unsent c _ _ hc hs => exact (UInt64.not_lt.2 (hconf c hc) hs).elim
    | accepted => rfl

section
variable {P : Pair → Prop} {p : Pair} {now : Int32}
  (hraise : ∀ q date, P q → P (q.raise date now))
include hraise

theorem screened_preserves (hp : P p) (packet : Packet) : P (p.screened packet now) := by
  have hdated : P (p.dated packet now) := by
    obtain h | ⟨date, h⟩ := dated_eq p packet now
    · rw [h]
      exact hp
    · rw [h]
      exact hraise p date hp
  rw [screened, snd_screenLists]
  cases packet.address with
  | none => exact hdated
  | some l => exact hraise _ l.reinitDate hdated

/-- What each stage of a check keeps is kept however the check ends. -/
theorem checkPacket_preserves (hp : P p) {packet : Packet} {source : Address}
    (hdeliver : ∀ q, P q → P (q.deliver packet.seqno).2)
    (hheader : ∀ q l, P q → P (q.applyHeader packet l source)) (K : KeyScheme)
    (viaChannel : Bool) : P (p.checkPacket K packet source viaChannel now).2 := by
  have hscreened := screened_preserves hraise hp packet
  have hc := checkPacket_checked K p packet source viaChannel now
  generalize p.checkPacket K packet source viaChannel now = result at hc ⊢
  cases hc with
  | early => exact hp
  | replayed => exact hscreened
  | unsent => exact hdeliver _ hscreened
  | accepted => exact hheader _ _ (hdeliver _ hscreened)

end

end Pair

def Supply.zeros : Supply where
  key _ := .replicate 32 0
  fill _ := .replicate 32 0
  coin _ := false

/-- A pair with blank keys that nothing has happened to. -/
def Pair.blank : Pair := .new ⟨.replicate 32 0, 0, {}⟩ ⟨⟨.replicate 32 0⟩, {}⟩ {} 0 .zeros

end Adnl
