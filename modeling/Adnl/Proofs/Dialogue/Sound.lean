import Adnl.Proofs.Dialogue.Genuine

/-! # What holds of an end throughout

An end numbers what it builds one by one, its window stands for what it has marked, and it confirms
nothing but what it has marked. Both sides of this are counted from some packet on, since a later
start of the peer makes an end count afresh.
-/
namespace Adnl

def issued (n : Nat) : UInt64 := UInt64.ofNat (min n (2 ^ 64 - 1))

theorem toNat_issued (n : Nat) : (issued n).toNat = min n (2 ^ 64 - 1) := by
  rw [issued, UInt64.toNat_ofNat']
  omega

theorem saturatingAdd_issued (n : Nat) : saturatingAdd (issued n) 1 = issued (n + 1) := by
  rw [← UInt64.toNat_inj, toNat_saturatingAdd, toNat_issued, toNat_issued]
  simp
  omega

theorem issued_mono {m n : Nat} (h : m ≤ n) : issued m ≤ issued n := by
  rw [UInt64.le_iff_toNat_le, toNat_issued, toNat_issued]
  omega

theorem highest_eq_zero_or_mem (seen : List UInt64) : highest seen = 0 ∨ highest seen ∈ seen := by
  induction seen with
  | nil => exact .inl rfl
  | cons n seen ih =>
    rw [highest, show max (highest seen) n = if highest seen ≤ n then n else highest seen from rfl]
    split_ifs
    · exact .inr List.mem_cons_self
    · exact ih.imp_right (List.mem_cons_of_mem n)

theorem admissible_iff {seen : List UInt64} {n : UInt64} :
    Admissible seen n ↔
      n ≠ 0 ∧ ∀ m ∈ seen, m ≠ n ∧ m.toNat / 256 * 256 ≤ n.toNat / 256 * 256 + 256 := by
  refine and_congr_right fun _ => ?_
  constructor
  · rintro ⟨hnew, hrecent⟩ m hm
    have hmono := Nat.div_le_div_right (c := 256) (le_highest hm)
    exact ⟨fun h => hnew (h ▸ hm), (Nat.mul_le_mul_right 256 hmono).trans hrecent⟩
  · intro h
    refine ⟨fun hn => (h n hn).1 rfl, ?_⟩
    rcases highest_eq_zero_or_mem seen with hz | hm
    · simp [hz]
    · exact (h _ hm).2

/-- From which packets on an end counts. -/
structure Epoch where
  /-- The first own packet since the end started. -/
  since : Nat := 0
  /-- The own packet with the number one. -/
  base : Nat := 0
  /-- The first packet of the peer that the window knows about. -/
  known : Nat := 0

namespace End

/-- An end whose identity is `own` and that knows its peer as `peer`. -/
structure Sound (K : KeyScheme) (own peer : LocalIdentity) (ep : Epoch) (e : End) : Prop where
  own_eq : e.pair.own = own
  peer_eq : e.pair.remote.key = peer.key K
  date : e.pair.peerReinitDate = 0 ∨ e.pair.peerReinitDate = peer.reinitDate
  unheard : e.pair.peerReinitDate = 0 → peer.reinitDate ≠ 0 → e.marks ep.known = []
  received : e.pair.received.Reflects (e.marks ep.known)
  last : e.pair.sent.last = issued (e.built.length - ep.base)
  base_le : ep.base ≤ e.built.length
  genuine : ∀ i g, e.built[i]? = some g → ep.since ≤ i →
    g.Genuine K own ∧ g.receiverDate ≤ peer.reinitDate
  numbered : ∀ i g, e.built[i]? = some g → ep.base ≤ i →
    g.number = issued (i - ep.base + 1) ∧ (g.confirms = 0 ∨ g.confirms ∈ e.marks ep.known)

theorem marks_cons (e : End) (pair : Pair) (a : Arrival) (first : Nat) :
    ({ e with pair, arrivals := a :: e.arrivals } : End).marks first =
      if a.marked && decide (first ≤ a.index) then a.number :: e.marks first
      else e.marks first := by
  simp only [marks, List.filter_cons]
  split_ifs <;> rfl

theorem mem_marks {e : End} {first : Nat} {n : UInt64} : n ∈ e.marks first ↔
    ∃ a ∈ e.arrivals, a.marked ∧ first ≤ a.index ∧ a.number = n := by
  simp only [marks, List.mem_map, List.mem_filter, Bool.and_eq_true, decide_eq_true_eq]
  constructor
  · rintro ⟨a, ⟨ha, hm, hi⟩, hn⟩
    exact ⟨a, ha, hm, hi, hn⟩
  · rintro ⟨a, ha, hm, hi, hn⟩
    exact ⟨a, ⟨ha, hm, hi⟩, hn⟩

namespace Sound

variable {K : KeyScheme} {own peer : LocalIdentity} {ep : Epoch} {e : End}

theorem withPair (h : e.Sound K own peer ep) {p : Pair} (hi : p.intake = e.pair.intake)
    (hs : p.sent = e.pair.sent) : ({ e with pair := p } : End).Sound K own peer ep where
  own_eq := (congrArg Pair.Intake.own hi).trans h.own_eq
  peer_eq := (congrArg Pair.Intake.peer hi).trans h.peer_eq
  date := by
    have hd : p.peerReinitDate = e.pair.peerReinitDate := congrArg Pair.Intake.date hi
    exact hd ▸ h.date
  unheard hz := h.unheard ((congrArg Pair.Intake.date hi).symm.trans hz)
  received := by
    have hr : p.received = e.pair.received := congrArg Pair.Intake.received hi
    exact hr ▸ h.received
  last := hs ▸ h.last
  base_le := h.base_le
  genuine := h.genuine
  numbered := h.numbered

theorem getElem?_concat {l : List SentPacket} {g g' : SentPacket} {i : Nat}
    (h : (l ++ [g])[i]? = some g') : l[i]? = some g' ∨ i = l.length ∧ g' = g := by
  rw [List.getElem?_append] at h
  split_ifs at h with hi
  · exact .inl h
  · have hz : i - l.length = 0 := by
      by_contra hne
      rw [List.getElem?_singleton, if_neg hne] at h
      cases h
    rw [hz] at h
    cases h
    exact .inr ⟨by omega, rfl⟩

theorem build (hK : K.AcceptsOwn) (h : e.Sound K own peer ep)
    (hl : own.addresses.reinitDate ≤ own.reinitDate) (hd : 0 ≤ peer.reinitDate)
    (ms : List Message) :
    (e.act K (.build ms)).Sound K own peer ep := by
  obtain ⟨hg, hn, hc, hr⟩ := Pair.genuine_build (p := e.pair) hK (by rw [h.own_eq]; exact hl) ms rfl
  have hnumber : e.pair.sent.next.1 = issued (e.built.length - ep.base + 1) := by
    change saturatingAdd e.pair.sent.last 1 = _
    rw [h.last, saturatingAdd_issued]
  have hlength : e.built.length + 1 - ep.base = e.built.length - ep.base + 1 := by
    have := h.base_le
    omega
  exact
    { own_eq := h.own_eq
      peer_eq := h.peer_eq
      date := h.date
      unheard := h.unheard
      received := h.received
      last := by
        change e.pair.sent.next.1 = issued ((e.built ++ [_]).length - ep.base)
        rw [hnumber, List.length_append, List.length_singleton, hlength]
      base_le := by
        change ep.base ≤ (e.built ++ [_]).length
        rw [List.length_append]
        exact h.base_le.trans (Nat.le_add_right _ _)
      genuine := by
        intro i g' hg' hi
        rcases getElem?_concat hg' with hold | ⟨rfl, rfl⟩
        · exact h.genuine i g' hold hi
        · rw [hr]
          refine ⟨h.own_eq ▸ hg, ?_⟩
          rcases h.date with hz | hz
          · exact hz ▸ hd
          · exact Int32.le_of_eq hz
      numbered := by
        intro i g' hg' hi
        rcases getElem?_concat hg' with hold | ⟨rfl, rfl⟩
        · exact h.numbered i g' hold hi
        · refine ⟨hn.trans hnumber, ?_⟩
          rw [hc, h.received.last_eq]
          exact highest_eq_zero_or_mem _ }

theorem act (hK : K.AcceptsOwn) (h : e.Sound K own peer ep)
    (hl : own.addresses.reinitDate ≤ own.reinitDate) (hd : 0 ≤ peer.reinitDate)
    {event : Pair.Event} (hin : event.isInner) :
    (e.act K event).Sound K own peer ep := by
  by_cases hb : ∃ ms, event = .build ms
  · obtain ⟨ms, rfl⟩ := hb
    exact h.build hK hl hd ms
  · have hb' : ∀ ms, event ≠ .build ms := fun ms hms => hb ⟨ms, hms⟩
    have hact : e.act K event = { e with pair := e.pair.after K event } := by
      cases event with
      | build ms => exact absurd rfl (hb' ms)
      | _ => rfl
    rw [hact]
    exact h.withPair (e.pair.intake_after K hin) (e.pair.sent_after K hin hb')

theorem raise (h : e.Sound K own peer ep) (now : Int32) :
    ({ e with pair := e.pair.raise peer.reinitDate now } : End).Sound K own peer ep := by
  by_cases hr : e.pair.isFuture peer.reinitDate now = false ∧
      e.pair.peerReinitDate < peer.reinitDate
  · -- the first date heard is stored and nothing else changes
    have hz : e.pair.peerReinitDate = 0 :=
      h.date.resolve_right fun heq => Int32.lt_irrefl (heq ▸ hr.2)
    have hstored : e.pair.raise peer.reinitDate now =
        { e.pair with peerReinitDate := peer.reinitDate } := by
      rw [Pair.raise_of_lt hr.1 hr.2, Pair.reinit_of_eq_zero hz]
    rw [hstored]
    exact { h with
      date := .inr rfl
      unheard := fun heq hne => absurd heq hne }
  · have hsame : e.pair.raise peer.reinitDate now = e.pair := if_neg hr
    rw [hsame]
    exact h

theorem last_raise (h : e.Sound K own peer ep) (now : Int32) :
    (e.pair.raise peer.reinitDate now).sent.last = e.pair.sent.last :=
  (h.raise now).last.trans h.last.symm

theorem pass (h : e.Sound K own peer ep) {a : Arrival} (ha : a.marked = false) :
    ({ e with arrivals := a :: e.arrivals } : End).Sound K own peer ep := by
  have hmarks : ({ e with arrivals := a :: e.arrivals } : End).marks ep.known =
      e.marks ep.known := by
    rw [marks_cons, ha]
    rfl
  exact { h with
    unheard := hmarks ▸ h.unheard
    received := hmarks ▸ h.received
    numbered := hmarks ▸ h.numbered }

theorem mark (h : e.Sound K own peer ep) (hheard : e.pair.peerReinitDate = peer.reinitDate)
    {a : Arrival} (ha : a.marked) (hi : ep.known ≤ a.index)
    (hnew : ¬ e.pair.received.Refuses a.number) {p : Pair}
    (hp : p.intake = { e.pair.intake with received := (e.pair.received.deliver a.number).2 })
    (hs : p.sent = e.pair.sent) :
    ({ e with pair := p, arrivals := a :: e.arrivals } : End).Sound K own peer ep := by
  have hmarks : ({ e with pair := p, arrivals := a :: e.arrivals } : End).marks ep.known =
      a.number :: e.marks ep.known := by
    rw [marks_cons, ha, decide_eq_true hi]
    rfl
  have hdate : p.peerReinitDate = peer.reinitDate := (congrArg Pair.Intake.date hp).trans hheard
  have hreceived : p.received = (e.pair.received.deliver a.number).2 :=
    congrArg Pair.Intake.received hp
  exact
    { own_eq := (congrArg Pair.Intake.own hp).trans h.own_eq
      peer_eq := (congrArg Pair.Intake.peer hp).trans h.peer_eq
      date := .inr hdate
      unheard := fun hz hne => absurd (hdate.symm.trans hz) hne
      received := by
        rw [hmarks]
        exact hreceived ▸ h.received.deliver hnew
      last := hs ▸ h.last
      base_le := h.base_le
      genuine := h.genuine
      numbered := by
        intro i g hg hbase
        obtain ⟨hn, hc⟩ := h.numbered i g hg hbase
        rw [hmarks]
        exact ⟨hn, hc.imp_right (List.mem_cons_of_mem _)⟩ }

theorem take (h : e.Sound K own peer ep) (hheard : e.pair.peerReinitDate = peer.reinitDate)
    {g : SentPacket} {i : Nat} (hi : ep.known ≤ i) {result : Except PacketDrop Unit × Pair}
    (ht : Pair.Taken g e.pair result) :
    ({ e with pair := result.2, arrivals := ⟨i, g, result.1⟩ :: e.arrivals } : End).Sound
      K own peer ep := by
  cases ht with
  | refused => exact h.pass rfl
  | marked hnew hp hs =>
    refine h.mark (a := ⟨i, g, _⟩) hheard ?_ hi hnew hp hs
    simp only [Arrival.marked]
    split_ifs <;> rfl

theorem receive (h : e.Sound K own peer ep) {g : SentPacket} (hg : g.Genuine K peer) {i : Nat}
    (hi : ep.known ≤ i) (source : Address) (now : Int32) :
    (e.receive K i g source now).Sound K own peer ep := by
  rcases Pair.checkPacket_genuine hg h.peer_eq source now with ⟨-, r, hr, hc⟩ | ⟨ht, hc⟩
  · rw [End.receive, hc]
    exact h.pass (Arrival.marked_eq_false hr)
  · obtain ⟨-, hf, hle⟩ := (Pair.timely_iff_of_genuine hg).1 ht
    exact (h.raise now).take (Pair.peerReinitDate_raise hf hle) hi hc

section
variable {o : End} {oep : Epoch} {i : Nat} {g : SentPacket}

theorem number_le_last (he : e.Sound K own peer ep) (hg : e.built[i]? = some g)
    (hbase : ep.base ≤ i) : g.number ≤ e.pair.sent.last := by
  have hlt : i < e.built.length := (List.getElem?_eq_some_iff.1 hg).1
  rw [(he.numbered i g hg hbase).1, he.last]
  exact issued_mono (by omega)

theorem toNat_number (he : e.Sound K own peer ep) (hg : e.built[i]? = some g) (hbase : ep.base ≤ i)
    (hfew : e.built.length < 2 ^ 64) : g.number.toNat = i - ep.base + 1 := by
  have hlt : i < e.built.length := (List.getElem?_eq_some_iff.1 hg).1
  rw [(he.numbered i g hg hbase).1, toNat_issued]
  omega

/-- A confirmation names a number that was marked, so one that was issued, as long as it is of the
present numbering. -/
theorem confirms_le (he : e.Sound K own peer ep) (ho : o.Sound K peer own oep)
    (harrived : ∀ a ∈ o.arrivals, e.built[a.index]? = some a.sent)
    (hg : o.built[i]? = some g) (hbase : oep.base ≤ i)
    (hmarked : ∀ a ∈ o.arrivals, a.marked → oep.known ≤ a.index → ep.base ≤ a.index) :
    g.confirms ≤ e.pair.sent.last := by
  rcases (ho.numbered i g hg hbase).2 with hz | hn
  · rw [hz]
    exact UInt64.zero_le
  · obtain ⟨a, ha, hm, hk, hn⟩ := mem_marks.1 hn
    rw [← hn]
    exact he.number_le_last (harrived a ha) (hmarked a ha hm hk)

/-- A packet of the present numbering is accepted when the numbers that have been marked leave room
for its own and it confirms no more than has been issued. -/
theorem accepts_iff_leavesRoom (he : e.Sound K own peer ep) (ho : o.Sound K peer own oep)
    (hd : 0 ≤ peer.reinitDate) (hg : o.built[i]? = some g) (hsince : oep.since ≤ i)
    (hbase : oep.base ≤ i) {now : Int32} (hnow : e.pair.isFuture peer.reinitDate now = false)
    (source : Address) :
    (e.pair.checkPacket K g.packet source g.viaChannel now).1 = .ok () ↔
      (∀ a ∈ e.arrivals, a.marked → ep.known ≤ a.index → a.LeavesRoom g.number) ∧
        g.confirms ≤ e.pair.sent.last := by
  obtain ⟨hgenuine, hreceiver⟩ := ho.genuine i g hg hsince
  have hzero : g.number ≠ 0 := by
    rw [(ho.numbered i g hg hbase).1, Ne, ← UInt64.toNat_inj, toNat_issued]
    exact Nat.ne_of_gt (Nat.lt_min.2 ⟨Nat.succ_pos _, by decide⟩)
  have ht : e.pair.Timely g.packet now := by
    refine (Pair.timely_iff_of_genuine hgenuine).2 ⟨he.own_eq ▸ hreceiver, hnow, ?_⟩
    rcases he.date with hz | hz
    · exact hz ▸ hd
    · exact Int32.le_of_eq hz
  have hraised := he.raise now
  have hmarks : ({ e with pair := e.pair.raise peer.reinitDate now } : End).marks ep.known =
      e.marks ep.known := rfl
  rw [Pair.checkPacket_genuine_ok_iff hgenuine he.peer_eq ht, he.last_raise,
    hraised.received.not_refuses_iff, hmarks, admissible_iff]
  refine and_congr_left fun _ => ⟨fun h a ha hm hk => ?_, fun h => ⟨hzero, fun n hn => ?_⟩⟩
  · exact h.2 a.number (mem_marks.2 ⟨a, ha, hm, hk, rfl⟩)
  · obtain ⟨a, ha, hm, hk, rfl⟩ := mem_marks.1 hn
    exact h a ha hm hk

/-- The first arrival of a packet of the present numbering that is not too far behind: only
numbers that were marked before this numbering can stand in its way, and a confirmation of more than
has been issued. -/
theorem accepts_iff (he : e.Sound K own peer ep) (ho : o.Sound K peer own oep)
    (hd : 0 ≤ peer.reinitDate)
    (harrived : ∀ a ∈ e.arrivals, o.built[a.index]? = some a.sent)
    (hg : o.built[i]? = some g) (hsince : oep.since ≤ i)
    (hbase : oep.base ≤ i) (hfirst : ∀ a ∈ e.arrivals, a.index ≠ i)
    (hfew : o.built.length < 2 ^ 64) {now : Int32}
    (hnow : e.pair.isFuture peer.reinitDate now = false)
    (hrecent : ∀ a ∈ e.arrivals, a.marked → oep.base ≤ a.index →
      a.number.toNat ≤ g.number.toNat + 256) (source : Address) :
    (e.pair.checkPacket K g.packet source g.viaChannel now).1 = .ok () ↔
      (∀ a ∈ e.arrivals, a.marked → ep.known ≤ a.index → a.index < oep.base →
          a.LeavesRoom g.number) ∧
        g.confirms ≤ e.pair.sent.last := by
  rw [he.accepts_iff_leavesRoom ho hd hg hsince hbase hnow source]
  refine and_congr_left fun _ => ⟨fun h a ha hm hk _ => h a ha hm hk, fun h a ha hm hk => ?_⟩
  by_cases hold : a.index < oep.base
  · exact h a ha hm hk hold
  · -- the numbers of one numbering differ
    have hle : oep.base ≤ a.index := Nat.le_of_not_lt hold
    have hthis : g.number.toNat = i - oep.base + 1 := ho.toNat_number hg hbase hfew
    have hother : a.number.toNat = a.index - oep.base + 1 :=
      ho.toNat_number (harrived a ha) hle hfew
    have hne := hfirst a ha
    have hnear := hrecent a ha hm hle
    constructor
    · rw [Ne, ← UInt64.toNat_inj, hother, hthis]
      omega
    · omega

end

end Sound

end End

end Adnl
