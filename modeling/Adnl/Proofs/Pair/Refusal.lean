import Adnl.Crypto.Curve25519
import Adnl.Proofs.Pair.Run

/-! # What a refused packet leaves behind

A packet without a later date in its header or list changes nothing when it is refused, with one
exception: its number is marked before the number that it confirms is looked at. A packet that
confirms too much uses its own number up.
-/
namespace Adnl.Pair

section
variable {K : KeyScheme} {p : Pair} {packet : Packet} {source : Address} {viaChannel : Bool}
  {now : Int32} {r : PacketDrop}

theorem deliver_eq_self_iff (hw : p.received.window.isSome) (hu : p.Unseen packet) :
    (p.deliver packet.seqno).2 = p ↔ packet.seqno = none := by
  cases hn : packet.seqno with
  | none => simp [deliver]
  | some n =>
    have hne := History.deliver_ne_of_not_refuses hw (hu n hn)
    refine iff_of_false (fun h => hne ?_) (Option.some_ne_none n)
    exact congrArg Pair.received h

/-- A packet that brings no later date is refused before anything has changed, or right after its
number has been marked. -/
theorem refused_cases (hd : ∀ d, packet.reinitDates = some d → d.own ≤ p.peerReinitDate)
    (hl : ∀ l, packet.address = some l → l.reinitDate ≤ p.peerReinitDate)
    (h : (p.checkPacket K packet source viaChannel now).1 = .error r) :
    (∀ c s, r ≠ .unsentConfirm c s) ∧ (p.checkPacket K packet source viaChannel now).2 = p ∨
      (∃ c, r = .unsentConfirm c p.sent.last) ∧ p.Unseen packet ∧
        (p.checkPacket K packet source viaChannel now).2 = (p.deliver packet.seqno).2 := by
  have hs : p.screened packet now = p := screened_of_le hd hl
  have hc := checkPacket_checked K p packet source viaChannel now
  generalize p.checkPacket K packet source viaChannel now = result at hc h ⊢
  cases hc with
  | early r' hr' =>
    cases h
    exact .inl ⟨hr', rfl⟩
  | replayed n =>
    cases h
    exact .inl ⟨fun _ _ he => PacketDrop.noConfusion he, hs⟩
  | unsent c _ hu =>
    rw [hs] at h hu ⊢
    cases h
    exact .inr ⟨⟨c, rfl⟩, hu, rfl⟩
  | accepted => cases h

end

/-- A refused packet that brings no later date leaves the pair as it was, unless it confirms what
was never sent. Then its number, if it has one, is marked, nothing else changes, and the same number
is refused from there on. -/
theorem refused_eq_iff (K : KeyScheme) (own : LocalIdentity) (remote : Descriptor)
    (config : Config) (start : Int32) (supply : Supply) (es : List Event) {p : Pair}
    (hp : (Pair.new own remote config start supply).run K es = p) {packet : Packet}
    (source : Address) (viaChannel : Bool) (now : Int32) {r : PacketDrop}
    (hd : ∀ d, packet.reinitDates = some d → d.own ≤ p.peerReinitDate)
    (hl : ∀ l, packet.address = some l → l.reinitDate ≤ p.peerReinitDate)
    (h : (p.checkPacket K packet source viaChannel now).1 = .error r) :
    ((p.checkPacket K packet source viaChannel now).2 = p ↔
        (∀ c s, r ≠ .unsentConfirm c s) ∨ packet.seqno = none) ∧
      ∀ n c s, packet.seqno = some n → r = .unsentConfirm c s →
        (p.checkPacket K packet source viaChannel now).2 =
            { p with received := (p.received.deliver n).2 } ∧
          (p.checkPacket K packet source viaChannel now).2.received.Refuses n := by
  obtain ⟨seen, hr⟩ : p.received.Tracked :=
    hp ▸ (onward_run _ K es).tracked History.tracked_receiver
  have hw : p.received.window.isSome := by
    obtain ⟨w, hw, -⟩ := hr.window
    rw [hw]
    rfl
  rcases refused_cases hd hl h with ⟨hother, hsame⟩ | ⟨⟨c, rfl⟩, hu, hmarked⟩
  · exact ⟨iff_of_true hsame (.inl hother), fun n c s _ he => absurd he (hother c s)⟩
  · rw [hmarked, deliver_eq_self_iff hw hu]
    refine ⟨⟨.inr, fun h => h.resolve_left fun hne => hne c _ rfl⟩, fun n _ _ hn _ => ?_⟩
    rw [hn]
    exact ⟨rfl, hr.refuses_deliver_self⟩

def overconfirming : Packet := { seqno := some 1, confirmSeqno := some 3 }

theorem refused_eq_iff_overconfirming :
    (blank.checkPacket ed25519 overconfirming ⟨.v4 0, 0⟩ true 0).2.received.Refuses 1 := by
  have h : (blank.checkPacket ed25519 overconfirming ⟨.v4 0, 0⟩ true 0).1 =
      .error (.unsentConfirm 3 0) := by decide +kernel
  have hd : ∀ d, overconfirming.reinitDates = some d → d.own ≤ blank.peerReinitDate := by
    simp [overconfirming]
  have hl : ∀ l, overconfirming.address = some l → l.reinitDate ≤ blank.peerReinitDate := by
    simp [overconfirming]
  have hspec := refused_eq_iff ed25519 blank.own blank.remote {} 0 .zeros [] rfl ⟨.v4 0, 0⟩ true 0
    hd hl h
  exact (hspec.2 1 3 0 rfl rfl).2

/-- The refused packet has changed the pair. -/
theorem refused_ne_overconfirming :
    (blank.checkPacket ed25519 overconfirming ⟨.v4 0, 0⟩ true 0).1 =
        .error (.unsentConfirm 3 0) ∧
      (blank.checkPacket ed25519 overconfirming ⟨.v4 0, 0⟩ true 0).2.received ≠
        blank.received := by
  decide +kernel

end Adnl.Pair
