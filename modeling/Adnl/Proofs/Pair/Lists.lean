import Adnl.Crypto.Curve25519
import Adnl.Proofs.Pair.Build
import Adnl.Proofs.Pair.Replay
import Mathlib.Data.Prod.Lex

/-! # Address lists never roll back

The stored list of a peer gives way only to a later edition. A refused packet teaches nothing about
where the peer is, and a list of another epoch than the known one is left aside. As long as the
stored list counts as the peer's own, an accepted packet has brought it.
-/
namespace Adnl

/-- The lists of an owner in order: by when the owner started, then by version. -/
def AddressList.edition (l : AddressList) : ℤ ×ₗ ℤ := toLex (l.reinitDate.toInt, l.version.toInt)

theorem AddressList.isNewerThan_iff {l m : AddressList} :
    l.isNewerThan m ↔ m.edition < l.edition := by
  rw [isNewerThan, edition, edition, Prod.Lex.toLex_lt_toLex, Bool.or_eq_true, Bool.and_eq_true,
    decide_eq_true_iff, decide_eq_true_iff, decide_eq_true_iff, Int32.lt_iff_toInt_lt,
    Int32.lt_iff_toInt_lt, Int32.toInt_inj, eq_comm (a := l.reinitDate)]

theorem Packet.knownVersion_setMessages (p : Packet) (ms : List Message) :
    (p.setMessages ms).knownVersion = p.knownVersion :=
  match ms with
  | [] => rfl
  | [_] => rfl
  | _ :: _ :: _ => rfl

structure Whereabouts where
  addresses : AddressList
  adopted : Bool
  observed : Option Address

namespace Pair

def whereabouts (p : Pair) : Whereabouts := ⟨p.remote.addresses, p.listAdopted, p.observed⟩

/-- An event teaches something about the peer only if it brings a newer list from elsewhere or an
accepted packet. The list of an accepted packet counts if it is of the epoch that the pair is in
afterwards. -/
inductive Learns (K : KeyScheme) (p : Pair) : Event → Whereabouts → Prop
  | nothing (e : Event) : Learns K p e p.whereabouts
  | told {l : AddressList} (hnew : p.remote.addresses.edition < l.edition) :
    Learns K p (.list l) { p.whereabouts with addresses := l, adopted := false }
  | heard {packet : Packet} {source : Address} {viaChannel : Bool} {now : Int32}
    (htaken : p.taken? K (.packet packet source viaChannel now) = some packet) :
    Learns K p (.packet packet source viaChannel now)
      { p.whereabouts with observed := some source }
  | adopted {packet : Packet} {source : Address} {viaChannel : Bool} {now : Int32}
    {l : AddressList}
    (htaken : p.taken? K (.packet packet source viaChannel now) = some packet)
    (hl : packet.address = some l) (hfuture : p.isFuture l.reinitDate now = false)
    (hdate : (p.after K (.packet packet source viaChannel now)).peerReinitDate = l.reinitDate)
    (hnew : p.remote.addresses.edition < l.edition ∨ l = p.remote.addresses) :
    Learns K p (.packet packet source viaChannel now) ⟨l, true, some source⟩

section
variable (K : KeyScheme) (p : Pair) {packet : Packet} {now : Int32} {l : AddressList}

theorem whereabouts_reinit (date now : Int32) :
    (p.reinit date now).whereabouts = p.whereabouts := by
  obtain ⟨_, _, _, _, _, _, _, _, h⟩ := p.reinit_eq date now
  rw [h]
  rfl

theorem whereabouts_raise (date now : Int32) :
    (p.raise date now).whereabouts = p.whereabouts := by
  rw [raise]
  split_ifs
  · exact p.whereabouts_reinit date now
  · rfl

theorem whereabouts_screened (packet : Packet) (now : Int32) :
    (p.screened packet now).whereabouts = p.whereabouts := by
  apply screened_preserves (P := fun q => q.whereabouts = p.whereabouts)
  · exact fun q date hq => (q.whereabouts_raise date now).trans hq
  · rfl

theorem whereabouts_deliver (seqno : Option UInt64) :
    (p.deliver seqno).2.whereabouts = p.whereabouts := by
  obtain ⟨_, h⟩ := p.snd_deliver seqno
  rw [h]
  rfl

/-- A newer list is taken over, the stored one confirmed, and any other is left aside. -/
theorem whereabouts_adoptList (l : AddressList) :
    ((p.adoptList l).whereabouts = { p.whereabouts with addresses := l, adopted := true } ∧
        (p.remote.addresses.edition < l.edition ∨ l = p.remote.addresses)) ∨
      (p.adoptList l).whereabouts = p.whereabouts := by
  rw [adoptList]
  split_ifs with hnew hsame
  · exact .inl ⟨rfl, .inl (AddressList.isNewerThan_iff.1 hnew)⟩
  · subst hsame
    exact .inl ⟨rfl, .inr rfl⟩
  · exact .inr rfl

theorem isFuture_dated (packet : Packet) (date now : Int32) :
    (p.dated packet now).isFuture date now = p.isFuture date now := by
  have hskew : (p.dated packet now).maxSkew = p.maxSkew := by
    obtain h | ⟨date', h⟩ := dated_eq p packet now
    · rw [h]
    · rw [h]
      exact (p.onward_raise date' now).maxSkew_eq
  rw [isFuture, isFuture, hskew]

theorem fst_screenList (l : AddressList) (now : Int32) : (p.screenList l now).1 = true ↔
    p.isFuture l.reinitDate now = false ∧ p.peerReinitDate ≤ l.reinitDate := by
  rw [screenList]
  split_ifs with hfuture hraise hstale
  · simp [hfuture]
  · simp [hfuture, Int32.le_of_lt hraise]
  · simp [hstale]
  · simp [hfuture, Int32.not_lt.1 hstale]

variable {p}

theorem date_of_screenLists
    (h : ((p.dated packet now).screenLists packet.address now).1 = some l) :
    packet.address = some l ∧ p.isFuture l.reinitDate now = false ∧
      (p.screened packet now).peerReinitDate = l.reinitDate := by
  rw [screened, snd_screenLists]
  cases haddress : packet.address with
  | none =>
    rw [haddress] at h
    cases h
  | some m =>
    rw [haddress] at h
    obtain ⟨husable, hm⟩ : ((p.dated packet now).screenList m now).1 = true ∧ m = l := by
      simpa [screenLists] using h
    obtain ⟨hfuture, hle⟩ := (fst_screenList _ m now).1 husable
    subst hm
    exact ⟨rfl, p.isFuture_dated packet _ now ▸ hfuture, peerReinitDate_raise hfuture hle⟩

variable (p)

/-- A refused packet may have started the pair over, but it says nothing about where the peer is. -/
theorem whereabouts_of_refused {source : Address} {viaChannel : Bool} {r : PacketDrop}
    (h : (p.checkPacket K packet source viaChannel now).1 = .error r) :
    (p.checkPacket K packet source viaChannel now).2.whereabouts = p.whereabouts := by
  have hs := p.whereabouts_screened packet now
  have hc := checkPacket_checked K p packet source viaChannel now
  generalize p.checkPacket K packet source viaChannel now = result at hc h ⊢
  cases hc with
  | early => rfl
  | replayed => exact hs
  | unsent => exact (whereabouts_deliver _ _).trans hs
  | accepted => cases h

section
variable {source : Address} {viaChannel : Bool}
  (h : (p.checkPacket K packet source viaChannel now).1 = .ok ())
include h

theorem snd_checkPacket_of_ok : (p.checkPacket K packet source viaChannel now).2 =
    ((p.screened packet now).deliver packet.seqno).2.applyHeader packet
      ((p.dated packet now).screenLists packet.address now).1 source := by
  have hc := checkPacket_checked K p packet source viaChannel now
  generalize p.checkPacket K packet source viaChannel now = result at hc h ⊢
  cases hc with
  | accepted => rfl
  | _ => cases h

theorem peerReinitDate_checkPacket_of_ok :
    (p.checkPacket K packet source viaChannel now).2.peerReinitDate =
      (p.screened packet now).peerReinitDate := by
  obtain ⟨ha, ht, -, -⟩ := (checkPacket_ok_iff ..).1 h
  obtain ⟨_, _, _, _, _, hc⟩ := checkPacket_eq_of_timely ha ht source
  rw [hc]

end

theorem learns_packet (packet : Packet) (source : Address) (viaChannel : Bool) (now : Int32) :
    p.Learns K (.packet packet source viaChannel now)
      (p.checkPacket K packet source viaChannel now).2.whereabouts := by
  cases hok : (p.checkPacket K packet source viaChannel now).1 with
  | error r =>
    rw [p.whereabouts_of_refused K hok]
    exact .nothing _
  | ok _ =>
    have htaken : p.taken? K (.packet packet source viaChannel now) = some packet := by
      rw [taken?, hok]
    have hdate := p.peerReinitDate_checkPacket_of_ok K hok
    have hwhere : ((p.screened packet now).deliver packet.seqno).2.whereabouts =
        p.whereabouts := by
      rw [whereabouts_deliver, whereabouts_screened]
    rw [p.snd_checkPacket_of_ok K hok]
    generalize ((p.screened packet now).deliver packet.seqno).2 = q at hwhere ⊢
    cases hl : ((p.dated packet now).screenLists packet.address now).1 with
    | none =>
      change p.Learns K _ { q.whereabouts with observed := some source }
      rw [hwhere]
      exact .heard htaken
    | some l =>
      obtain ⟨haddress, hfuture, hepoch⟩ := date_of_screenLists hl
      change p.Learns K _ { (q.adoptList l).whereabouts with observed := some source }
      obtain ⟨hadopted, hnew⟩ | hkept := q.whereabouts_adoptList l
      · have haddresses : q.remote.addresses = p.remote.addresses :=
          congrArg Whereabouts.addresses hwhere
        rw [haddresses] at hnew
        rw [hadopted]
        exact .adopted htaken haddress hfuture (hdate.trans hepoch) hnew
      · rw [hkept, hwhere]
        exact .heard htaken

theorem learns_after (e : Event) : p.Learns K e (p.after K e).whereabouts := by
  have hnothing {e : Event} (h : (p.after K e).whereabouts = p.whereabouts) :
      p.Learns K e (p.after K e).whereabouts := h ▸ .nothing e
  cases e with
  | packet packet source viaChannel now => exact p.learns_packet K packet source viaChannel now
  | list l =>
    rw [after, updateList, Descriptor.update]
    split_ifs with hnew
    · exact .told (AddressList.isNewerThan_iff.1 hnew)
    · exact .nothing _
  | date date now =>
    refine hnothing ?_
    rw [after, snd_observeDate, whereabouts_raise]
  | create routes key date =>
    obtain ⟨_, h⟩ := p.snd_onCreateChannel K routes key date
    refine hnothing ?_
    rw [after, h]
    rfl
  | confirm routes key peerKey date =>
    obtain ⟨_, h⟩ := p.snd_onConfirmChannel K routes key peerKey date
    refine hnothing ?_
    rw [after, h]
    rfl
  | collect first queue =>
    refine hnothing ?_
    rw [after, snd_collect]
    rfl
  | route packet =>
    obtain ⟨_, h⟩ := p.snd_route K packet
    refine hnothing ?_
    rw [after, h]
    rfl
  | ready => exact .nothing _
  | close => exact .nothing _
  | build => exact .nothing _
  | part => exact .nothing _
  | drawFill => exact .nothing _

theorem edition_after (e : Event) : (p.after K e).remote.addresses = p.remote.addresses ∨
    p.remote.addresses.edition < (p.after K e).remote.addresses.edition := by
  have hlearns := p.learns_after K e
  change (p.after K e).whereabouts.addresses = _ ∨ _ < (p.after K e).whereabouts.addresses.edition
  generalize (p.after K e).whereabouts = w at hlearns ⊢
  cases hlearns with
  | nothing => exact .inl rfl
  | told hnew => exact .inr hnew
  | heard => exact .inl rfl
  | adopted _ _ _ _ hnew => exact hnew.symm

theorem edition_run (es : List Event) : (p.run K es).remote.addresses = p.remote.addresses ∨
    p.remote.addresses.edition < (p.run K es).remote.addresses.edition := by
  induction es generalizing p with
  | nil => exact .inl rfl
  | cons e es ih =>
    change ((p.after K e).run K es).remote.addresses = _ ∨
      _ < ((p.after K e).run K es).remote.addresses.edition
    obtain hrest | hrest := ih (p.after K e)
    · rw [hrest]
      exact p.edition_after K e
    · obtain hfirst | hfirst := p.edition_after K e
      · exact .inr (hfirst ▸ hrest)
      · exact .inr (hfirst.trans hrest)

/-- If the stored list counts as the peer's own, one of the packets has brought it. -/
def Sourced (p : Pair) (packets : List Packet) : Prop :=
  p.listAdopted → ∃ packet ∈ packets, packet.address = some p.remote.addresses

theorem sourced_run (hp : p.listAdopted = false) (es : List Event) :
    (p.run K es).Sourced (p.accepted K es) := by
  induction es using List.reverseRecOn with
  | nil =>
    intro hadopted
    rw [run, List.foldl_nil, hp] at hadopted
    cases hadopted
  | append_singleton es e ih =>
    have hrun : p.run K (es ++ [e]) = (p.run K es).after K e := List.foldl_append
    have hlearns := (p.run K es).learns_after K e
    rw [accepted_append, accepted_singleton, hrun]
    have hbefore : (p.run K es).listAdopted → ∃ packet ∈
        p.accepted K es ++ ((p.run K es).taken? K e).toList,
        packet.address = some (p.run K es).remote.addresses := by
      intro hadopted
      obtain ⟨packet, hmem, haddress⟩ := ih hadopted
      exact ⟨packet, List.mem_append_left _ hmem, haddress⟩
    change ((p.run K es).after K e).whereabouts.adopted → ∃ packet ∈
      p.accepted K es ++ ((p.run K es).taken? K e).toList,
      packet.address = some ((p.run K es).after K e).whereabouts.addresses
    generalize ((p.run K es).after K e).whereabouts = w at hlearns ⊢
    cases hlearns with
    | nothing => exact hbefore
    | told => rintro ⟨⟩
    | heard => exact hbefore
    | @adopted packet _ _ _ _ htaken haddress =>
      intro _
      rw [htaken]
      exact ⟨packet, List.mem_append_right _ List.mem_cons_self, haddress⟩

theorem knownVersion_build (ms : List Message) : (p.build K ms).1.knownVersion =
    if p.listAdopted then some p.remote.addresses.version else none := by
  change _ = p.header.knownVersion
  rw [fst_build]
  by_cases hready : p.channelReady
  · rw [if_pos hready]
    exact p.header.knownVersion_setMessages ms
  · rw [if_neg hready]
    exact (p.openHeader K).knownVersion_setMessages ms

end

/-- However a pair has come about: from there on its list only gives way to later editions, a
refused packet changes nothing that is known about where the peer is, a list of an older epoch or
from the future is not taken over, and the version that packets acknowledge is that of a list which
an accepted packet has brought and which is still stored. -/
theorem lists_never_roll_back (K : KeyScheme) (own : LocalIdentity) (remote : Descriptor)
    (config : Config) (start : Int32) (supply : Supply) (es : List Event) {p : Pair}
    (hp : (Pair.new own remote config start supply).run K es = p) :
    (∀ es', (p.run K es').remote.addresses = p.remote.addresses ∨
        p.remote.addresses.edition < (p.run K es').remote.addresses.edition) ∧
      (∀ packet source viaChannel now,
        (∀ r, (p.checkPacket K packet source viaChannel now).1 = .error r →
          (p.checkPacket K packet source viaChannel now).2.whereabouts = p.whereabouts) ∧
        ∀ l, packet.address = some l →
          l.reinitDate < p.peerReinitDate ∨
            l.reinitDate < (p.checkPacket K packet source viaChannel now).2.peerReinitDate ∨
            p.isFuture l.reinitDate now →
          (p.checkPacket K packet source viaChannel now).2.remote.addresses =
              p.remote.addresses ∧
            (p.checkPacket K packet source viaChannel now).2.listAdopted = p.listAdopted) ∧
      ∀ ms v, (p.build K ms).1.knownVersion = some v → p.remote.addresses.version = v ∧
        ∃ packet ∈ (Pair.new own remote config start supply).accepted K es,
          packet.address = some p.remote.addresses := by
  refine ⟨p.edition_run K, fun packet source viaChannel now => ⟨fun r => ?_, ?_⟩, ?_⟩
  · exact p.whereabouts_of_refused K
  · intro l haddress hstrange
    have hle : p.peerReinitDate ≤ (p.checkPacket K packet source viaChannel now).2.peerReinitDate :=
      (p.onward_checkPacket K packet source viaChannel now).date_le
    have hlearns := p.learns_packet K packet source viaChannel now
    change (p.checkPacket K packet source viaChannel now).2.whereabouts.addresses = _ ∧
      (p.checkPacket K packet source viaChannel now).2.whereabouts.adopted = _
    generalize (p.checkPacket K packet source viaChannel now).2.whereabouts = w at hlearns ⊢
    cases hlearns with
    | nothing => exact ⟨rfl, rfl⟩
    | heard => exact ⟨rfl, rfl⟩
    | adopted _ hl hfuture hdate =>
      obtain rfl := Option.some.inj (haddress.symm.trans hl)
      obtain hold | hold | hahead := hstrange
      · exact absurd (hdate ▸ Int32.lt_of_lt_of_le hold hle) Int32.lt_irrefl
      · exact absurd (hdate ▸ hold) Int32.lt_irrefl
      · exact absurd hahead (Bool.eq_false_iff.1 hfuture)
  · intro ms v hv
    rw [knownVersion_build] at hv
    split_ifs at hv with hadopted
    subst hp
    exact ⟨Option.some.inj hv, sourced_run K _ rfl es hadopted⟩

def fifthVersion : Packet :=
  { seqno := some 1, reinitDates := some ⟨100, 0⟩,
    address := some { version := 5, reinitDate := 100 } }

/-- The pair acknowledges the list, and then a newer one from elsewhere takes its place. -/
theorem lists_never_roll_back_acknowledged :
    (∃ packet ∈ blank.accepted ed25519 [arrival fifthVersion 100],
        packet.address = some { version := 5, reinitDate := 100 }) ∧
      (((blank.run ed25519 [arrival fifthVersion 100]).run ed25519
          [.list { version := 6, reinitDate := 100 }]).build ed25519 []).1.knownVersion = none := by
  have hp : (Pair.new blank.own blank.remote {} 0 .zeros).run ed25519 [arrival fifthVersion 100] =
      blank.run ed25519 [arrival fifthVersion 100] := rfl
  have hspec := lists_never_roll_back ed25519 blank.own blank.remote {} 0 .zeros _ hp
  have hversion : ((blank.run ed25519 [arrival fifthVersion 100]).build ed25519
      []).1.knownVersion = some 5 := by
    rw [knownVersion_build]
    decide +kernel
  have hstored : (blank.run ed25519 [arrival fifthVersion 100]).remote.addresses =
      { version := 5, reinitDate := 100 } := by decide +kernel
  obtain ⟨packet, hmem, haddress⟩ := (hspec.2.2 [] 5 hversion).2
  refine ⟨⟨packet, hmem, hstored ▸ haddress⟩, ?_⟩
  rw [knownVersion_build]
  decide +kernel

end Pair

end Adnl
