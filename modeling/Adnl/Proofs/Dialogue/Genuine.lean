import Adnl.Proofs.Dialogue.Basic

/-! # Genuine packets

What an end builds is genuine: its header is complete and its dates are those of the end. Where it
arrives, a genuine packet brings one date only. It is refused before anything has changed, or the
epoch is raised to that date and then its number decides.
-/
namespace Adnl

def KeyScheme.AcceptsOwn (K : KeyScheme) : Prop :=
  ∀ seed message, K.verify (K.publicKey seed) message (K.sign seed message) = .ok ()

/-- A scheme whose signatures are the key and the message. -/
def KeyScheme.transparent : KeyScheme where
  publicKey seed := ⟨seed⟩
  sign seed message := seed.toList ++ message
  verify key message signature :=
    if signature = key.bytes.toList ++ message then .ok () else .error .invalidSignature
  agree _ key := .ok key.bytes

theorem KeyScheme.acceptsOwn_transparent : transparent.AcceptsOwn := fun _ _ => if_pos rfl

/-- The packet could come from the identity: it has a header with both numbers and both dates, no
list from later, and no other sender's name, and either the channel vouches for it or it is
signed. -/
structure SentPacket.Genuine (K : KeyScheme) (own : LocalIdentity) (g : SentPacket) : Prop where
  seqno : g.packet.seqno = some g.number
  confirmSeqno : g.packet.confirmSeqno = some g.confirms
  reinitDates : g.packet.reinitDates = some ⟨own.reinitDate, g.receiverDate⟩
  address : ∀ l, g.packet.address = some l → l.reinitDate ≤ own.reinitDate
  sender : ∀ id, g.packet.senderName = some id → id = (own.key K).shortId
  signature : g.viaChannel = false → g.packet.verify K (own.key K) = .ok ()

theorem Packet.setMessages_eq (p : Packet) (ms : List Message) :
    ∃ message messages, p.setMessages ms = { p with message, messages } := by
  match ms with
  | [] => exact ⟨none, none, rfl⟩
  | [m] => exact ⟨some m, none, rfl⟩
  | m :: m' :: ms => exact ⟨none, some (m :: m' :: ms), rfl⟩

theorem Packet.verify_sign {K : KeyScheme} (hK : K.AcceptsOwn) (seed : Bytes32) (p : Packet) :
    (p.sign K seed).verify K (K.publicKey seed) = .ok () := by
  simp only [verify, sign, unsigned, hK seed]

namespace Pair

variable {K : KeyScheme} {p : Pair}

theorem build_eq (K : KeyScheme) (p : Pair) (ms : List Message) :
    ∃ rand1 rand2 message messages knownVersion address,
      (address = none ∨ address = some p.own.addresses) ∧ (p.build K ms).1 =
        let packet : Packet :=
          { rand1, rand2, message, messages, knownVersion
            seqno := some p.sent.next.1
            confirmSeqno := some p.received.last
            reinitDates := some ⟨p.own.reinitDate, p.peerReinitDate⟩ }
        if p.channelReady then packet
        else Packet.sign K p.own.seed { packet with sender := some (p.own.key K), address } := by
  let header : Packet :=
    { rand1 := p.supply.drawPadding.1
      rand2 := p.supply.drawPadding.2.drawPadding.1
      seqno := some p.sent.next.1
      confirmSeqno := some p.received.last
      reinitDates := some ⟨p.own.reinitDate, p.peerReinitDate⟩
      knownVersion := if p.listAdopted then some p.remote.addresses.version else none }
  let address := if p.peerKnownVersion = some p.own.addresses.version then none
    else some p.own.addresses
  obtain ⟨message, messages, hm⟩ := header.setMessages_eq ms
  refine ⟨header.rand1, header.rand2, message, messages, header.knownVersion, address, ?_, ?_⟩
  · simp only [address]
    split_ifs
    · exact .inl rfl
    · exact .inr rfl
  · change (if p.channelReady then header.setMessages ms else
      Packet.sign K p.own.seed
        { header.setMessages ms with sender := some (p.own.key K), address }) = _
    rw [hm]

/-- What a pair builds is genuine. It takes the next number and tells what has been received. -/
theorem genuine_build (hK : K.AcceptsOwn) (hl : p.own.addresses.reinitDate ≤ p.own.reinitDate)
    (ms : List Message) {g : SentPacket} (hg : g = ⟨(p.build K ms).1, p.channelReady⟩) :
    g.Genuine K p.own ∧ g.number = p.sent.next.1 ∧ g.confirms = p.received.last ∧
      g.receiverDate = p.peerReinitDate := by
  obtain ⟨rand1, rand2, message, messages, knownVersion, address, haddress, hbuild⟩ :=
    build_eq K p ms
  rw [hbuild] at hg
  subst hg
  by_cases hready : p.channelReady
  · simp only [hready, if_true]
    exact ⟨⟨rfl, rfl, rfl, by rintro _ ⟨⟩, by rintro _ ⟨⟩, by rintro ⟨⟩⟩, rfl, rfl, rfl⟩
  · simp only [hready, Bool.false_eq_true, if_false]
    refine ⟨⟨rfl, rfl, rfl, fun l h => ?_, fun id h => ?_, fun _ => ?_⟩, rfl, rfl, rfl⟩
    · change address = some l at h
      rcases haddress with rfl | rfl
      · cases h
      · cases h
        exact hl
    · change some (p.own.key K).shortId = some id at h
      exact (Option.some.inj h).symm
    · exact Packet.verify_sign hK p.own.seed _

end Pair

/-- What becomes of a packet whose dates are in order, at a pair that knows them. -/
inductive Pair.Taken (g : SentPacket) (q : Pair) : Except PacketDrop Unit × Pair → Prop
  | refused (h : q.received.Refuses g.number) : Taken g q (.error (.replay g.number), q)
  | marked {p : Pair} (h : ¬ q.received.Refuses g.number)
    (hi : p.intake = { q.intake with received := (q.received.deliver g.number).2 })
    (hs : p.sent = q.sent) :
    Taken g q (if q.sent.last < g.confirms then .error (.unsentConfirm g.confirms q.sent.last)
      else .ok (), p)

namespace Pair

theorem Taken.peerReinitDate_eq {g : SentPacket} {q : Pair}
    {result : Except PacketDrop Unit × Pair} (h : Taken g q result) :
    result.2.peerReinitDate = q.peerReinitDate := by
  cases h with
  | refused => rfl
  | marked _ hi => exact congrArg Intake.date hi

section
variable {g : SentPacket} {p q : Pair} (h : ¬ q.received.Refuses g.number)
  (hi : p.intake = { q.intake with received := (q.received.deliver g.number).2 })
  (hs : p.sent = q.sent)
include h hi hs

theorem Taken.accepted (hc : g.confirms ≤ q.sent.last) : Taken g q (.ok (), p) := by
  have ht := Taken.marked h hi hs
  rwa [if_neg (UInt64.not_lt.2 hc)] at ht

theorem Taken.overconfirming (hc : q.sent.last < g.confirms) :
    Taken g q (.error (.unsentConfirm g.confirms q.sent.last), p) := by
  have ht := Taken.marked h hi hs
  rwa [if_pos hc] at ht

end

section
variable {K : KeyScheme} {p : Pair} {g : SentPacket} {peer : LocalIdentity} {now : Int32}

theorem authenticate_of_genuine (hg : g.Genuine K peer) (hp : p.remote.key = peer.key K) :
    p.authenticate K g.packet g.viaChannel = .ok () := by
  have hsender : ∀ id, g.packet.senderName = some id → id = p.remote.key.shortId := hp ▸ hg.sender
  have hsignature : g.viaChannel = false → g.packet.verify K p.remote.key = .ok () :=
    hp ▸ hg.signature
  unfold authenticate
  cases hv : g.viaChannel with
  | true =>
    cases hs : g.packet.senderName with
    | none => rfl
    | some id => simp [hsender id hs]
  | false =>
    cases hs : g.packet.senderName with
    | none => simp [hsignature hv]
    | some id => simp [hsender id hs, hsignature hv]

theorem timely_iff_of_genuine (hg : g.Genuine K peer) : p.Timely g.packet now ↔
    g.receiverDate ≤ p.own.reinitDate ∧ p.isFuture peer.reinitDate now = false ∧
      p.peerReinitDate ≤ peer.reinitDate := by
  simp only [Timely, hg.reinitDates, Option.some_inj, forall_eq']

theorem screened_of_genuine (hg : g.Genuine K peer) (ht : p.Timely g.packet now) :
    p.screened g.packet now = p.raise peer.reinitDate now :=
  screened_of_dates ht hg.reinitDates hg.address

theorem unseen_iff_of_genuine (hg : g.Genuine K peer) :
    p.Unseen g.packet ↔ ¬ p.received.Refuses g.number := by
  simp only [Unseen, hg.seqno, Option.some_inj, forall_eq']

theorem confirms_iff_of_genuine (hg : g.Genuine K peer) :
    p.Confirms g.packet ↔ g.confirms ≤ p.sent.last := by
  simp only [Confirms, hg.confirmSeqno, Option.some_inj, forall_eq']

theorem checkPacket_genuine (hg : g.Genuine K peer) (hp : p.remote.key = peer.key K)
    (source : Address) (now : Int32) :
    (¬ p.Timely g.packet now ∧ ∃ r, (∀ c s, r ≠ .unsentConfirm c s) ∧
        p.checkPacket K g.packet source g.viaChannel now = (.error r, p)) ∨
      p.Timely g.packet now ∧ Taken g (p.raise peer.reinitDate now)
        (p.checkPacket K g.packet source g.viaChannel now) := by
  have ha := authenticate_of_genuine hg hp
  have hc := checkPacket_checked K p g.packet source g.viaChannel now
  generalize p.checkPacket K g.packet source g.viaChannel now = result at hc ⊢
  cases hc with
  | early r hr h => exact .inl ⟨fun ht => h.elim (· ha) (· ht), r, hr, rfl⟩
  | replayed n ht hn hr =>
    rw [hg.seqno, Option.some_inj] at hn
    subst hn
    rw [screened_of_genuine hg ht] at hr ⊢
    exact .inr ⟨ht, .refused hr⟩
  | unsent c ht hu hc hs =>
    rw [hg.confirmSeqno, Option.some_inj] at hc
    subst hc
    rw [screened_of_genuine hg ht] at hu ⊢
    rw [screened_of_genuine hg ht] at hs
    rw [hg.seqno]
    exact .inr ⟨ht, .overconfirming ((unseen_iff_of_genuine hg).1 hu) rfl rfl hs⟩
  | accepted _ ht hu hc =>
    rw [screened_of_genuine hg ht] at hu hc ⊢
    have hconfirms := (confirms_iff_of_genuine hg).1 hc
    refine .inr ⟨ht, .accepted ((unseen_iff_of_genuine hg).1 hu) ?_ ?_ hconfirms⟩
    · rw [intake_applyHeader, hg.seqno]
      rfl
    · rw [sent_applyHeader, sent_deliver]

theorem checkPacket_genuine_ok_iff (hg : g.Genuine K peer) (hp : p.remote.key = peer.key K)
    (ht : p.Timely g.packet now) (source : Address) :
    (p.checkPacket K g.packet source g.viaChannel now).1 = .ok () ↔
      ¬ (p.raise peer.reinitDate now).received.Refuses g.number ∧
        g.confirms ≤ (p.raise peer.reinitDate now).sent.last := by
  rw [checkPacket_ok_iff, screened_of_genuine hg ht, unseen_iff_of_genuine hg,
    confirms_iff_of_genuine hg]
  exact ⟨fun h => h.2.2, fun h => ⟨authenticate_of_genuine hg hp, ht, h⟩⟩

end

end Pair

end Adnl
