import Adnl.Proofs.Dialogue.Delivery

/-! # One end starts again

The end that starts again takes in packets that the other end built for its predecessor: the
receiver date in them is behind, which is no reason to refuse them. When the other end hears of the
later date it starts over, and its numbers are counted afresh. So a number may stand in the window
of the new end that the other end is about to use again, and it may be confirmed although it was not
issued again yet.
-/
namespace Adnl

structure LocalIdentity.Succeeds (renewed old : LocalIdentity) : Prop where
  seed_eq : renewed.seed = old.seed
  later : old.reinitDate < renewed.reinitDate
  nonneg : 0 ≤ old.reinitDate

namespace LocalIdentity.Succeeds

variable {renewed old : LocalIdentity}

theorem key_eq (h : renewed.Succeeds old) (K : KeyScheme) : renewed.key K = old.key K :=
  congrArg K.publicKey h.seed_eq

theorem pos (h : renewed.Succeeds old) : 0 < renewed.reinitDate :=
  Int32.lt_of_le_of_lt h.nonneg h.later

end LocalIdentity.Succeeds

namespace End

variable {K : KeyScheme} {own old renewed : LocalIdentity} {e : End} {first base known : Nat}
  {g : SentPacket} {i : Nat}

/-- An end that has not heard of the later start, before which its peer has built `first`
packets. -/
structure Unaware (K : KeyScheme) (own old : LocalIdentity) (first : Nat) (e : End) : Prop where
  sound : e.Sound K own old {}
  unmarked : ∀ a ∈ e.arrivals, a.marked → a.index < first

/-- An end that has heard of it. Its packet `base` has the number one, and its window knows of the
packets from `known` on. Those are new ones, unless the first start had the date that stands for an
unknown one. -/
structure Aware (K : KeyScheme) (own old renewed : LocalIdentity) (first base known : Nat)
    (e : End) : Prop where
  sound : e.Sound K own renewed ⟨0, base, known⟩
  heard : e.pair.peerReinitDate = renewed.reinitDate
  known_le : known ≤ first
  known_eq_zero : old.reinitDate = 0 → known = 0
  forgotten : old.reinitDate ≠ 0 → ∀ a ∈ e.arrivals, a.marked → known ≤ a.index → first ≤ a.index

theorem marks_eq_nil_iff : e.marks first = [] ↔ ∀ a ∈ e.arrivals, a.marked → a.index < first := by
  rw [List.eq_nil_iff_forall_not_mem]
  constructor
  · intro h a ha hm
    by_contra hi
    exact h a.number (mem_marks.2 ⟨a, ha, hm, Nat.le_of_not_lt hi, rfl⟩)
  · rintro h n hn
    obtain ⟨a, ha, hm, hi, -⟩ := mem_marks.1 hn
    exact absurd (h a ha hm) (Nat.not_lt.2 hi)

theorem Unaware.raise (h : e.Unaware K own old first) (hs : renewed.Succeeds old) {now : Int32}
    (hnow : e.pair.isFuture renewed.reinitDate now = false) :
    ∃ base known, ({ e with pair := e.pair.raise renewed.reinitDate now } : End).Aware K own old
      renewed first base known := by
  have hsound := h.sound
  have hzero : renewed.reinitDate ≠ 0 := fun hz => Int32.lt_irrefl (hz ▸ hs.pos)
  have hlt : e.pair.peerReinitDate < renewed.reinitDate := by
    rcases hsound.date with hd | hd
    · exact hd ▸ hs.pos
    · exact hd ▸ hs.later
  have hgenuine : ∀ i g, e.built[i]? = some g → 0 ≤ i →
      g.Genuine K own ∧ g.receiverDate ≤ renewed.reinitDate := fun i g hg hi =>
    ⟨(hsound.genuine i g hg hi).1,
      Int32.le_trans (hsound.genuine i g hg hi).2 (Int32.le_of_lt hs.later)⟩
  rw [Pair.raise_of_lt hnow hlt]
  -- The first date that is heard is only noted; a later one resets the histories, so that the
  -- numbers count from what has been built by then.
  by_cases hd : e.pair.peerReinitDate = 0
  · rw [Pair.reinit_of_eq_zero hd]
    refine ⟨0, 0, ?_, rfl, Nat.zero_le _, fun _ => rfl, fun hne a ha hm => ?_⟩
    · exact { hsound with
        peer_eq := hsound.peer_eq.trans (hs.key_eq K).symm
        date := .inr rfl
        unheard := fun hz => absurd hz hzero
        genuine := hgenuine }
    · exact absurd (marks_eq_nil_iff.1 (hsound.unheard hd hne) a ha hm) (Nat.not_lt_zero _)
  · have honward := e.pair.onward_reinit hlt now
    have hdate := Pair.peerReinitDate_reinit e.pair renewed.reinitDate now
    obtain ⟨hreceived, hsent⟩ := Pair.histories_reinit_of_ne_zero hd renewed.reinitDate now
    have hold : old.reinitDate ≠ 0 := fun hz => hd (hsound.date.elim id (·.trans hz))
    refine ⟨e.built.length, first, ?_, hdate, Nat.le_refl _, fun hz => absurd hz hold,
      fun _ _ _ _ hi => hi⟩
    exact
      { own_eq := honward.own_eq.trans hsound.own_eq
        peer_eq := honward.peer_eq.trans (hsound.peer_eq.trans (hs.key_eq K).symm)
        date := .inr hdate
        unheard := fun hz => absurd (hdate.symm.trans hz) hzero
        received := by
          change (e.pair.reinit _ _).received.Reflects (e.marks first)
          rw [hreceived, marks_eq_nil_iff.2 h.unmarked]
          exact hsound.received.reset
        last := by
          change (e.pair.reinit _ _).sent.last = issued (e.built.length - e.built.length)
          rw [hsent, Nat.sub_self]
          rfl
        base_le := Nat.le_refl _
        genuine := hgenuine
        numbered := fun i g hg hi =>
          absurd (List.getElem?_eq_some_iff.1 hg).1 (Nat.not_lt.2 hi) }

theorem Unaware.act (hK : K.AcceptsOwn) (h : e.Unaware K own old first)
    (hl : own.addresses.reinitDate ≤ own.reinitDate) (hd : 0 ≤ old.reinitDate)
    {event : Pair.Event} (hin : event.isInner) : (e.act K event).Unaware K own old first :=
  ⟨h.sound.act hK hl hd hin, h.unmarked⟩

theorem Unaware.receive_old (h : e.Unaware K own old first) (hg : g.Genuine K old)
    (hi : i < first) (source : Address) (now : Int32) :
    (e.receive K i g source now).Unaware K own old first := by
  refine ⟨h.sound.receive hg (Nat.zero_le _) source now, fun a ha hm => ?_⟩
  rcases List.mem_cons.1 ha with rfl | ha
  · exact hi
  · exact h.unmarked a ha hm

theorem Aware.act (hK : K.AcceptsOwn) (h : e.Aware K own old renewed first base known)
    (hl : own.addresses.reinitDate ≤ own.reinitDate) (hd : 0 ≤ renewed.reinitDate)
    {event : Pair.Event} (hin : event.isInner) :
    (e.act K event).Aware K own old renewed first base known :=
  { h with
    sound := h.sound.act hK hl hd hin
    heard := (congrArg Pair.Intake.date (e.pair.intake_after K hin)).trans h.heard }

theorem Aware.take (h : e.Aware K own old renewed first base known) (hi : first ≤ i)
    {result : Except PacketDrop Unit × Pair} (ht : Pair.Taken g e.pair result) :
    ({ e with pair := result.2, arrivals := ⟨i, g, result.1⟩ :: e.arrivals } : End).Aware
      K own old renewed first base known := by
  refine { h with
    sound := h.sound.take h.heard (h.known_le.trans hi) ht
    heard := ht.peerReinitDate_eq.trans h.heard
    forgotten := fun hne a ha hm hk => ?_ }
  rcases List.mem_cons.1 ha with rfl | ha
  · exact hi
  · exact h.forgotten hne a ha hm hk

theorem Aware.pass (h : e.Aware K own old renewed first base known) {a : Arrival}
    (ha : a.marked = false) :
    ({ e with arrivals := a :: e.arrivals } : End).Aware K own old renewed first base known := by
  refine { h with
    sound := h.sound.pass ha
    forgotten := fun hne b hb hm hk => ?_ }
  rcases List.mem_cons.1 hb with rfl | hb
  · rw [ha] at hm
    cases hm
  · exact h.forgotten hne b hb hm hk

/-- The first new packet whose dates are in order tells of the start. -/
theorem Unaware.receive_new (h : e.Unaware K own old first) (hs : renewed.Succeeds old)
    (hg : g.Genuine K renewed) (hi : first ≤ i) (source : Address) (now : Int32) :
    (e.receive K i g source now).Unaware K own old first ∨
      ∃ base known, (e.receive K i g source now).Aware K own old renewed first base known := by
  have hkey : e.pair.remote.key = renewed.key K := h.sound.peer_eq.trans (hs.key_eq K).symm
  rcases Pair.checkPacket_genuine hg hkey source now with ⟨-, r, hr, hc⟩ | ⟨ht, hc⟩
  · have hunmarked := Arrival.marked_eq_false (i := i) (g := g) hr
    rw [End.receive, hc]
    refine .inl ⟨h.sound.pass hunmarked, fun a ha hm => ?_⟩
    rcases List.mem_cons.1 ha with rfl | ha
    · rw [hunmarked] at hm
      cases hm
    · exact h.unmarked a ha hm
  · obtain ⟨base, known, haware⟩ := h.raise hs ((Pair.timely_iff_of_genuine hg).1 ht).2.1
    exact .inr ⟨base, known, haware.take hi hc⟩

theorem Aware.receive_new (h : e.Aware K own old renewed first base known)
    (hg : g.Genuine K renewed) (hi : first ≤ i) (source : Address) (now : Int32) :
    (e.receive K i g source now).Aware K own old renewed first base known := by
  rcases Pair.checkPacket_genuine hg h.sound.peer_eq source now with ⟨-, r, hr, hc⟩ | ⟨-, hc⟩
  · rw [End.receive, hc]
    exact h.pass (Arrival.marked_eq_false hr)
  · rw [Pair.raise_of_le (Int32.le_of_eq h.heard.symm)] at hc
    exact h.take hi hc

theorem Aware.receive_old (h : e.Aware K own old renewed first base known)
    (hs : renewed.Succeeds old) (hg : g.Genuine K old) (source : Address) (now : Int32) :
    (e.receive K i g source now).Aware K own old renewed first base known := by
  have hkey : e.pair.remote.key = old.key K := h.sound.peer_eq.trans (hs.key_eq K)
  rcases Pair.checkPacket_genuine hg hkey source now with ⟨-, r, hr, hc⟩ | ⟨ht, -⟩
  · rw [End.receive, hc]
    exact h.pass (Arrival.marked_eq_false hr)
  · have hle := ((Pair.timely_iff_of_genuine hg).1 ht).2.2
    rw [h.heard] at hle
    exact absurd hs.later (Int32.not_lt.2 hle)

end End

namespace Dialogue

variable {K : KeyScheme} {P : Side → Party} {Q : Party} {s : Side} {first base known : Nat}
  {d d' : Dialogue}

/-- The end `s` has started again as `Q` when it had built `first` packets. -/
structure Renewed (K : KeyScheme) (P : Side → Party) (Q : Party) (s : Side) (first : Nat)
    (d : Dialogue) : Prop where
  honest : d.Honest
  sound : (d s).Sound K Q.own (P s.other).own ⟨first, first, 0⟩
  old : ∀ i g, (d s).built[i]? = some g → i < first → g.Genuine K (P s).own

theorem Renewed.stepped (hK : K.AcceptsOwn) (hd : d.Renewed K P Q s first)
    (hother : ∀ (i : Nat) (g : SentPacket), (d s.other).built[i]? = some g →
      g.Genuine K (P s.other).own)
    (h : Stepped K d d') : d'.Renewed K P Q s first := by
  refine ⟨hd.honest.stepped h, ?_, fun i g hg hi => ?_⟩
  · have hs := h s
    generalize d' s = e at hs ⊢
    cases hs with
    | same => exact hd.sound
    | acted hin => exact hd.sound.act hK Q.list_le (P s.other).date_nonneg hin
    | received hg source now => exact hd.sound.receive (hother _ _ hg) (Nat.zero_le _) source now
  · -- what was built before the start is still the same
    have hlt : i < (d s).built.length := Nat.lt_of_lt_of_le hi hd.sound.base_le
    exact hd.old i g (h.built_of_lt hg hlt) hi

structure Unaware (K : KeyScheme) (P : Side → Party) (Q : Party) (s : Side) (first : Nat)
    (d : Dialogue) : Prop extends Renewed K P Q s first d where
  other : (d s.other).Unaware K (P s.other).own (P s).own first

structure Aware (K : KeyScheme) (P : Side → Party) (Q : Party) (s : Side) (first base known : Nat)
    (d : Dialogue) : Prop extends Renewed K P Q s first d where
  other : (d s.other).Aware K (P s.other).own (P s).own Q.own first base known

theorem Unaware.stepped (hK : K.AcceptsOwn) (hQ : Q.own.Succeeds (P s).own)
    (hd : d.Unaware K P Q s first) (h : Stepped K d d') :
    d'.Unaware K P Q s first ∨ ∃ base known, d'.Aware K P Q s first base known := by
  have hgenuine (i : Nat) (g : SentPacket) (hg : (d s.other).built[i]? = some g) :
      g.Genuine K (P s.other).own := (hd.other.sound.genuine i g hg (Nat.zero_le _)).1
  have hrenewed := hd.toRenewed.stepped hK hgenuine h
  have hs := h s.other
  rw [Side.other_other] at hs
  have hend : (d' s.other).Unaware K (P s.other).own (P s).own first ∨
      ∃ base known, (d' s.other).Aware K (P s.other).own (P s).own Q.own first base known := by
    generalize d' s.other = e at hs ⊢
    cases hs with
    | same => exact .inl hd.other
    | acted hin => exact .inl (hd.other.act hK (P s.other).list_le (P s).date_nonneg hin)
    | @received i g hg source now =>
      by_cases hi : i < first
      · exact .inl (hd.other.receive_old (hd.old i g hg hi) hi source now)
      · have hle : first ≤ i := Nat.le_of_not_lt hi
        exact hd.other.receive_new hQ (hd.sound.genuine i g hg hle).1 hle source now
  rcases hend with hother | ⟨base, known, hother⟩
  · exact .inl { hrenewed with other := hother }
  · exact .inr ⟨base, known, { hrenewed with other := hother }⟩

theorem Aware.stepped (hK : K.AcceptsOwn) (hQ : Q.own.Succeeds (P s).own)
    (hd : d.Aware K P Q s first base known) (h : Stepped K d d') :
    d'.Aware K P Q s first base known := by
  have hgenuine (i : Nat) (g : SentPacket) (hg : (d s.other).built[i]? = some g) :
      g.Genuine K (P s.other).own := (hd.other.sound.genuine i g hg (Nat.zero_le _)).1
  refine { hd.toRenewed.stepped hK hgenuine h with other := ?_ }
  have hs := h s.other
  rw [Side.other_other] at hs
  generalize d' s.other = e at hs ⊢
  cases hs with
  | same => exact hd.other
  | acted hin => exact hd.other.act hK (P s.other).list_le Q.date_nonneg hin
  | @received i g hg source now =>
    by_cases hi : i < first
    · exact hd.other.receive_old hQ (hd.old i g hg hi) source now
    · have hle : first ≤ i := Nat.le_of_not_lt hi
      exact hd.other.receive_new (hd.sound.genuine i g hg hle).1 hle source now

theorem restart_self (d : Dialogue) (s : Side) (Q : Party) :
    d.restart s Q s = ⟨Q.pair (d s).pair.remote.key, (d s).built, []⟩ :=
  Function.update_self ..

theorem restart_other (d : Dialogue) (s : Side) (Q : Party) : d.restart s Q s.other = d s.other :=
  Function.update_of_ne s.other_ne ..

theorem Honest.restart (hd : d.Honest) (s : Side) (Q : Party) : (d.restart s Q).Honest := by
  intro t a ha
  obtain rfl | rfl := Side.eq_or_eq_other s t
  · rw [restart_self] at ha
    cases ha
  · rw [restart_other] at ha
    rw [Side.other_other, restart_self]
    exact hd.other s a ha

theorem unaware_restart (hd : d.Steady K P) (s : Side) (Q : Party) :
    (d.restart s Q).Unaware K P Q s (d s).built.length where
  honest := hd.honest.restart s Q
  sound := by
    rw [restart_self]
    exact
      { own_eq := rfl
        peer_eq := (hd.sound s).peer_eq
        date := .inl rfl
        unheard := fun _ _ => rfl
        received := History.reflects_receiver
        last := by
          rw [Nat.sub_self]
          rfl
        base_le := Nat.le_refl _
        genuine := fun i g hg hi =>
          absurd (List.getElem?_eq_some_iff.1 hg).1 (Nat.not_lt.2 hi)
        numbered := fun i g hg hi =>
          absurd (List.getElem?_eq_some_iff.1 hg).1 (Nat.not_lt.2 hi) }
  old i g hg _ := by
    rw [restart_self] at hg
    exact ((hd.sound s).genuine i g hg (Nat.zero_le _)).1
  other := by
    rw [restart_other]
    exact ⟨hd.sound_other s, fun a ha _ =>
      (List.getElem?_eq_some_iff.1 (hd.honest.other s a ha)).1⟩

/-- Once the other end has heard of the start, it counts from packets that it has built before. -/
theorem aware_of_heard (hK : K.AcceptsOwn) (hQ : Q.own.Succeeds (P s).own) (hd : d.Steady K P)
    (ms : List Move)
    (hheard : ((d.restart s Q).run K ms s.other).pair.peerReinitDate = Q.own.reinitDate) :
    ∃ base known, ((d.restart s Q).run K ms).Aware K P Q s (d s).built.length base known := by
  have hrun := run_induction (K := K) (P := fun d' => d'.Unaware K P Q s (d s).built.length ∨
    ∃ base known, d'.Aware K P Q s (d s).built.length base known) (fun d₁ d₂ h hd₁ => by
      rcases hd₁ with hd₁ | ⟨base, known, hd₁⟩
      · exact hd₁.stepped hK hQ h
      · exact .inr ⟨base, known, hd₁.stepped hK hQ h⟩) (.inl (unaware_restart hd s Q)) ms
  refine hrun.resolve_left fun hunaware => ?_
  rcases hunaware.other.sound.date with hz | hz
  · rw [hheard] at hz
    exact Int32.lt_irrefl (hz ▸ hQ.pos)
  · rw [hheard] at hz
    exact Int32.lt_irrefl (hz ▸ hQ.later)

variable {i : Nat} {g : SentPacket} {now : Int32}

/-- To the end that has started again, what it has marked before the present numbering of the other
end stands in the way. -/
theorem Aware.accepts_iff (hd : d.Aware K P Q s first base known) (hg : d.Pending s i g now)
    (hbase : base ≤ i) (hrecent : (d s.other).pair.sent.last.toNat ≤ g.number.toNat + 256)
    (source : Address) :
    d.Accepts K s g source now ↔
      (∀ a ∈ (d s).arrivals, a.marked → a.index < base → a.LeavesRoom g.number) ∧
        ((P s).own.reinitDate = 0 → g.confirms ≤ (d s).pair.sent.last) := by
  have hother := hd.other.sound
  have hnow : (d s).pair.isFuture (P s.other).own.reinitDate now = false :=
    hother.own_eq ▸ hg.inTime
  have hconfirms : (P s).own.reinitDate ≠ 0 → g.confirms ≤ (d s).pair.sent.last := fun hne =>
    hd.sound.confirms_le hother (hd.honest.other s) hg.built hbase (hd.other.forgotten hne)
  have hnear : ∀ a ∈ (d s).arrivals, a.marked → base ≤ a.index →
      a.number.toNat ≤ g.number.toNat + 256 := fun a ha _ hi =>
    (UInt64.le_iff_toNat_le.1 (hother.number_le_last (hd.honest s a ha) hi)).trans hrecent
  refine (hd.sound.accepts_iff hother (P s.other).date_nonneg (hd.honest s) hg.built
    (Nat.zero_le _) hbase hg.first hg.few hnow hnear source).trans (and_congr ?_ ?_)
  · exact ⟨fun h a ha hm hi => h a ha hm (Nat.zero_le _) hi, fun h a ha hm _ hi => h a ha hm hi⟩
  · exact ⟨fun h _ => h, fun h => (em _).elim h hconfirms⟩

/-- To the other end, a confirmation of more than it has issued again stands in the way. -/
theorem Aware.accepts_other_iff (hd : d.Aware K P Q s first base known)
    (hg : d.Pending s.other i g now) (hfirst : first ≤ i)
    (hrecent : (d s).pair.sent.last.toNat ≤ g.number.toNat + 256) (source : Address) :
    d.Accepts K s.other g source now ↔
      ((P s).own.reinitDate = 0 →
          ∀ a ∈ (d s.other).arrivals, a.marked → a.index < first → a.LeavesRoom g.number) ∧
        g.confirms ≤ (d s.other).pair.sent.last := by
  obtain ⟨hbuilt, hnew, hfew, hnow⟩ := hg
  rw [Side.other_other] at hbuilt hfew hnow
  rw [hd.sound.own_eq] at hnow
  have hnear : ∀ a ∈ (d s.other).arrivals, a.marked → first ≤ a.index →
      a.number.toNat ≤ g.number.toNat + 256 := fun a ha _ hi =>
    (UInt64.le_iff_toNat_le.1 (hd.sound.number_le_last (hd.honest.other s a ha) hi)).trans hrecent
  refine (hd.other.sound.accepts_iff hd.sound Q.date_nonneg (hd.honest.other s) hbuilt hfirst hfirst
    hnew hfew hnow hnear source).trans (and_congr_left fun _ => ?_)
  constructor
  · exact fun h hz a ha hm hi => h a ha hm ((hd.other.known_eq_zero hz).trans_le a.index.zero_le) hi
  · intro h a ha hm hk hi
    by_cases hz : (P s).own.reinitDate = 0
    · exact h hz a ha hm hi
    · exact absurd (hd.other.forgotten hz a ha hm hk) (Nat.not_le.2 hi)

theorem Aware.leavesRoom_iff (hd : d.Aware K P Q s first base known) {bound : Nat}
    (hbase : base ≤ bound) (hi : bound ≤ i) (hg : d.Pending s i g now) :
    (∀ a ∈ (d s).arrivals, a.marked → a.index < base → a.LeavesRoom g.number) ↔
      ∀ a ∈ (d s).arrivals, a.marked → a.index < bound → a.LeavesRoom g.number := by
  have hother := hd.other.sound
  constructor
  · intro h a ha hm hlt
    by_cases hold : a.index < base
    · exact h a ha hm hold
    · have hearlier : a.number.toNat = a.index - base + 1 :=
        hother.toNat_number (hd.honest s a ha) (Nat.le_of_not_lt hold) hg.few
      have hnumber : g.number.toNat = i - base + 1 :=
        hother.toNat_number hg.built (hbase.trans hi) hg.few
      constructor
      · rw [Ne, ← UInt64.toNat_inj]
        omega
      · omega
  · exact fun h a ha hm hlt => h a ha hm (Nat.lt_of_lt_of_le hlt hbase)

/-- After one end has started again and the other one has heard of it, a new packet of either end
that arrives for the first time and is not too far behind is accepted with two exceptions. The new
end refuses it when it has marked the same number, or one too far ahead, of a packet that the other
end built before it heard. The other end refuses it when it confirms more than has been issued
since, which takes such a packet, too. If the first start had the date that stands for an unknown
one, the other end does not start over and what it has marked before stands in the way as well. -/
theorem accepts_after_restart_iff (hK : K.AcceptsOwn) (P : Side → Party) (before : List Move)
    {d e f : Dialogue} (hd : (start K P).run K before = d) (s : Side) (Q : Party)
    (hseed : Q.own.seed = (P s).own.seed) (hlater : (P s).own.reinitDate < Q.own.reinitDate)
    (between : List Move) (he : (d.restart s Q).run K between = e)
    (hheard : (e s.other).pair.peerReinitDate = Q.own.reinitDate) (after : List Move)
    (hf : e.run K after = f) (i : Nat) (g : SentPacket) (source : Address) (now : Int32) :
    (f.Pending s i g now → (e s.other).built.length ≤ i →
        (f s.other).pair.sent.last.toNat ≤ g.number.toNat + 256 →
        (f.Accepts K s g source now ↔
          (∀ a ∈ (f s).arrivals, a.marked → a.index < (e s.other).built.length →
              a.LeavesRoom g.number) ∧
            ((P s).own.reinitDate = 0 → g.confirms ≤ (f s).pair.sent.last))) ∧
      (f.Pending s.other i g now → (e s).built.length ≤ i →
        (f s).pair.sent.last.toNat ≤ g.number.toNat + 256 →
        (f.Accepts K s.other g source now ↔
          ((P s).own.reinitDate = 0 →
              ∀ a ∈ (f s.other).arrivals, a.marked → a.index < (d s).built.length →
                a.LeavesRoom g.number) ∧
            g.confirms ≤ (f s.other).pair.sent.last) ∧
        ((∀ a ∈ (f s).arrivals, a.marked → (e s.other).built.length ≤ a.index) →
          g.confirms ≤ (f s.other).pair.sent.last)) := by
  have hsteady : d.Steady K P := hd ▸ steady_run hK P before
  have hQ : Q.own.Succeeds (P s).own := ⟨hseed, hlater, (P s).date_nonneg⟩
  obtain ⟨base, known, haware⟩ : ∃ base known, e.Aware K P Q s (d s).built.length base known := by
    rw [← he]
    exact aware_of_heard hK hQ hsteady between (he ▸ hheard)
  have hend : f.Aware K P Q s (d s).built.length base known :=
    hf ▸ run_induction (fun _ _ h hd => hd.stepped hK hQ h) haware after
  have hbase : base ≤ (e s.other).built.length := haware.other.sound.base_le
  have hfirst : (d s).built.length ≤ (e s).built.length := haware.sound.base_le
  refine ⟨fun hg hi hrecent => ?_, fun hg hi hrecent => ⟨?_, fun hclean => ?_⟩⟩
  · rw [← hend.leavesRoom_iff hbase hi hg]
    exact hend.accepts_iff hg (hbase.trans hi) hrecent source
  · exact hend.accepts_other_iff hg (hfirst.trans hi) hrecent source
  · have hbuilt := hg.built
    rw [Side.other_other] at hbuilt
    exact hend.other.sound.confirms_le hend.sound (hend.honest s) hbuilt (hfirst.trans hi)
      fun a ha hm _ => hbase.trans (hclean a ha hm)

def newcomer : Party := .plain (.replicate 32 2) 200 (by decide)

def arriving (s : Side) (i : Nat) : Move := .arrive s i ⟨.v4 0, 0⟩ 200

/-- The left end hears from the right one and builds three packets. -/
def acquainted : Dialogue := (start .transparent strangers).run .transparent
  [building .right, arriving .left 0, building .left, building .left, building .left]

/-- The right end starts again, takes in the third of them and makes itself heard. -/
def reintroduced : Dialogue := (acquainted.restart .right newcomer).run .transparent
  [building .right, arriving .right 2, arriving .left 1]

def resumed : Dialogue := reintroduced.run .transparent
  [building .left, building .left, building .left]

def resent (i : Nat) : SentPacket := (resumed .left).built.getD i ⟨{}, false⟩

theorem resumed_marks :
    (reintroduced .left).pair.peerReinitDate = newcomer.own.reinitDate ∧
      (reintroduced .left).built.length = 3 ∧ (resumed .left).built.length = 6 ∧
      (resumed .left).pair.sent.last = 3 ∧
      (∀ a ∈ (resumed .right).arrivals, a.index = 2 ∧ a.number = 3) ∧
      (resent 3).number = 1 ∧
      ((resumed .right).pair.checkPacket .transparent (resent 5).packet ⟨.v4 0, 0⟩
        (resent 5).viaChannel 200).1 = .error (.replay 3) ∧
      (resumed .right).pair.isFuture (resumed .left).pair.own.reinitDate 200 = false := by
  decide +kernel

theorem pending_resent {i : Nat} (hi : 2 < i) (hlt : i < 6) :
    resumed.Pending .right i (resent i) 200 := by
  obtain ⟨-, -, hlength, -, harrivals, -, -, hnow⟩ := resumed_marks
  have hbuilt : i < (resumed .left).built.length := hlt.trans_eq hlength.symm
  refine ⟨?_, fun a ha he => ?_, ?_, hnow⟩
  · change (resumed .left).built[i]? = _
    rw [resent, List.getD_eq_getElem _ _ hbuilt, List.getElem?_eq_getElem hbuilt]
  · have := (harrivals a ha).1
    omega
  · change (resumed .left).built.length < _
    omega

theorem accepts_after_restart_iff_first :
    resumed.Accepts .transparent .right (resent 3) ⟨.v4 0, 0⟩ 200 := by
  obtain ⟨hheard, hlength, -, hlast, harrivals, hnumber, -, -⟩ := resumed_marks
  have hd : (start .transparent strangers).run .transparent [building .right, arriving .left 0,
      building .left, building .left, building .left] = acquainted := rfl
  have he : (acquainted.restart .right newcomer).run .transparent
      [building .right, arriving .right 2, arriving .left 1] = reintroduced := rfl
  have hf : reintroduced.run .transparent [building .left, building .left, building .left] =
      resumed := rfl
  have hrecent : (resumed .left).pair.sent.last.toNat ≤ (resent 3).number.toNat + 256 := by
    rw [hlast, hnumber]
    decide
  have hroom : ∀ a ∈ (resumed .right).arrivals, a.LeavesRoom (resent 3).number := by
    intro a ha
    rw [Arrival.LeavesRoom, (harrivals a ha).2, hnumber]
    decide
  have hiff := (accepts_after_restart_iff KeyScheme.acceptsOwn_transparent strangers _ hd .right
    newcomer rfl (by decide) _ he hheard _ hf 3 (resent 3) ⟨.v4 0, 0⟩ 200).1
    (pending_resent (by decide) (by decide)) hlength.le hrecent
  exact hiff.2 ⟨fun a ha _ _ => hroom a ha, fun hz => absurd hz (by decide)⟩

/-- The third packet of the new numbering is refused for the third one of the old numbering. -/
theorem replay_after_restart :
    (reintroduced .left).pair.peerReinitDate = newcomer.own.reinitDate ∧
      (reintroduced .left).built.length ≤ 5 ∧ resumed.Pending .right 5 (resent 5) 200 ∧
      (resumed .left).pair.sent.last.toNat ≤ (resent 5).number.toNat + 256 ∧
      ((resumed .right).pair.checkPacket .transparent (resent 5).packet ⟨.v4 0, 0⟩
        (resent 5).viaChannel 200).1 = .error (.replay 3) := by
  obtain ⟨hheard, hlength, -, hlast, -, -, hrefused, -⟩ := resumed_marks
  refine ⟨hheard, hlength.le.trans (by decide), pending_resent (by decide) (by decide), ?_,
    hrefused⟩
  rw [hlast]
  exact (by decide : (3 : UInt64).toNat ≤ 256).trans (Nat.le_add_left _ _)

end Dialogue

end Adnl
