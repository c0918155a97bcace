import Adnl.Proofs.Dialogue.Sound

/-! # What two ends that never start again accept from each other

Neither end ever starts over, so each counts from the first packet on. Every confirmation names a
number that the other end has issued, and no honest date is ahead of what the other end knows of
itself. What is left is the window.
-/
namespace Adnl

namespace Dialogue

variable {K : KeyScheme} {d d' : Dialogue}

/-- Neither end has started again, and whatever was marked was accepted. -/
structure Steady (K : KeyScheme) (P : Side → Party) (d : Dialogue) : Prop where
  sound : ∀ s, (d s).Sound K (P s).own (P s.other).own {}
  honest : d.Honest
  settled : ∀ s, ∀ a ∈ (d s).arrivals, a.marked → a.outcome = .ok ()

variable {P : Side → Party}

theorem Steady.sound_other (h : d.Steady K P) (s : Side) :
    (d s.other).Sound K (P s.other).own (P s).own {} := by
  have ho := h.sound s.other
  rwa [Side.other_other] at ho

theorem Steady.genuine (h : d.Steady K P) {s : Side} {i : Nat} {g : SentPacket}
    (hg : (d s.other).built[i]? = some g) : g.Genuine K (P s.other).own :=
  ((h.sound s.other).genuine i g hg (Nat.zero_le _)).1

theorem Steady.confirms_le (h : d.Steady K P) {s : Side} {i : Nat} {g : SentPacket}
    (hg : (d s.other).built[i]? = some g) : g.confirms ≤ (d s).pair.sent.last :=
  (h.sound s).confirms_le (h.sound_other s) (h.honest.other s) hg (Nat.zero_le _)
    fun _ _ _ _ => Nat.zero_le _

/-- A packet that confirms no more than was issued is accepted if its number is marked. -/
theorem outcome_receive {e : End} {own peer : LocalIdentity} {ep : Epoch} {g : SentPacket}
    (he : e.Sound K own peer ep) (hg : g.Genuine K peer) (hc : g.confirms ≤ e.pair.sent.last)
    (source : Address) (now : Int32) (i : Nat)
    (hm : (⟨i, g, (e.pair.checkPacket K g.packet source g.viaChannel now).1⟩ : Arrival).marked) :
    (e.pair.checkPacket K g.packet source g.viaChannel now).1 = .ok () := by
  rcases Pair.checkPacket_genuine hg he.peer_eq source now with ⟨-, r, hr, hcheck⟩ | ⟨-, ht⟩
  · rw [hcheck, Arrival.marked_eq_false hr] at hm
    cases hm
  · generalize e.pair.checkPacket K g.packet source g.viaChannel now = result at ht hm ⊢
    cases ht with
    | refused => cases hm
    | marked =>
      rw [he.last_raise]
      exact if_neg (UInt64.not_lt.2 hc)

theorem Steady.stepped (hK : K.AcceptsOwn) (hd : d.Steady K P) (h : Stepped K d d') :
    d'.Steady K P := by
  refine ⟨fun s => ?_, hd.honest.stepped h, fun s => ?_⟩
  · have hs := h s
    generalize d' s = e at hs ⊢
    cases hs with
    | same => exact hd.sound s
    | acted hin => exact (hd.sound s).act hK (P s).list_le (P s.other).date_nonneg hin
    | received hg source now =>
      exact (hd.sound s).receive (hd.genuine hg) (Nat.zero_le _) source now
  · have hs := h s
    generalize d' s = e at hs ⊢
    cases hs with
    | same => exact hd.settled s
    | acted => exact hd.settled s
    | received hg source now =>
      intro a ha hm
      rcases List.mem_cons.1 ha with rfl | ha
      · exact outcome_receive (hd.sound s) (hd.genuine hg) (hd.confirms_le hg) source now _ hm
      · exact hd.settled s a ha hm

theorem sound_start (p : Party) (peer : LocalIdentity) :
    End.Sound K p.own peer {} ⟨p.pair (peer.key K), [], []⟩ where
  own_eq := rfl
  peer_eq := rfl
  date := .inl rfl
  unheard _ _ := rfl
  received := History.reflects_receiver
  last := rfl
  base_le := Nat.le_refl _
  genuine := by simp
  numbered := by simp

theorem steady_start (K : KeyScheme) (P : Side → Party) : (start K P).Steady K P where
  sound s := sound_start (P s) (P s.other).own
  honest s a ha := by cases ha
  settled s a ha := by cases ha

theorem steady_run (hK : K.AcceptsOwn) (P : Side → Party) (ms : List Move) :
    ((start K P).run K ms).Steady K P :=
  run_induction (fun _ _ h hd => hd.stepped hK h) (steady_start K P) ms

/-- Between two ends that never start again, whatever happened before, a packet is accepted when it
arrives for the first time and its number is at most 256 below the highest one accepted before. -/
theorem accepts_of_pending (hK : K.AcceptsOwn) (P : Side → Party) (ms : List Move) {d : Dialogue}
    (hd : (start K P).run K ms = d) {s : Side} {i : Nat} {g : SentPacket} {now : Int32}
    (hg : d.Pending s i g now)
    (hrecent : ∀ a ∈ (d s).arrivals, a.outcome = .ok () → a.number.toNat ≤ g.number.toNat + 256)
    (source : Address) : d.Accepts K s g source now := by
  have h : d.Steady K P := hd ▸ steady_run hK P ms
  have ho := h.sound_other s
  have hnow : (d s).pair.isFuture (P s.other).own.reinitDate now = false := ho.own_eq ▸ hg.inTime
  refine ((h.sound s).accepts_iff ho (P s.other).date_nonneg (h.honest s) hg.built (Nat.zero_le _)
    (Nat.zero_le _) hg.first hg.few hnow ?_ source).2 ⟨?_, h.confirms_le hg.built⟩
  · exact fun a ha hm _ => hrecent a ha (h.settled s a ha hm)
  · exact fun a _ _ _ hlt => absurd hlt (Nat.not_lt_zero _)

def strangers (s : Side) : Party :=
  .plain (.replicate 32 (if s = .left then 1 else 2)) 100 (by decide)

def building (s : Side) : Move := .act s ⟨.build [.nop], rfl⟩

/-- The left end builds two packets and the second one arrives first. -/
def overtaking : Dialogue := (start .transparent strangers).run .transparent
  [building .left, building .left, .arrive .right 1 ⟨.v4 0, 0⟩ 100]

def overtaken : SentPacket := (overtaking .left).built.getD 0 ⟨{}, false⟩

theorem accepts_of_pending_overtaken :
    overtaking.Pending .right 0 overtaken 100 ∧
      overtaking.Accepts .transparent .right overtaken ⟨.v4 0, 0⟩ 100 := by
  have hrun : (overtaking .left).built[0]? = some overtaken ∧
      (∀ a ∈ (overtaking .right).arrivals, a.index = 1 ∧ a.number = 2) ∧
      (overtaking .left).built.length = 2 ∧
      (overtaking .right).pair.isFuture (overtaking .left).pair.own.reinitDate 100 = false := by
    decide +kernel
  obtain ⟨hbuilt, harrivals, hlength, hnow⟩ := hrun
  have hpending : overtaking.Pending .right 0 overtaken 100 := by
    refine ⟨hbuilt, fun a ha he => ?_, hlength.trans_lt (by decide), hnow⟩
    exact absurd ((harrivals a ha).1.symm.trans he) (by decide)
  have hrecent : ∀ a ∈ (overtaking .right).arrivals, a.outcome = .ok () →
      a.number.toNat ≤ overtaken.number.toNat + 256 := by
    intro a ha _
    rw [(harrivals a ha).2]
    exact (by decide : (2 : UInt64).toNat ≤ 256).trans (Nat.le_add_left _ _)
  have hd : (start .transparent strangers).run .transparent
      [building .left, building .left, .arrive .right 1 ⟨.v4 0, 0⟩ 100] = overtaking := rfl
  exact ⟨hpending, accepts_of_pending KeyScheme.acceptsOwn_transparent strangers _ hd hpending
    hrecent ⟨.v4 0, 0⟩⟩

end Dialogue

end Adnl
