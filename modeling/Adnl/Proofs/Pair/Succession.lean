import Adnl.Proofs.Dialogue.Genuine
import Adnl.Proofs.Pair.Epoch
import Adnl.Proofs.Pair.Install

/-! # The channels of one epoch

Until the peer is seen to have started again, the channels that a pair installs come in the order of
their dates. A message that names the installed key, or another one with a date that is not later,
can at most make the channel ready, so that what has been replaced does not come back.
-/
namespace Adnl

def Channel.lasting (c : Channel) : Bytes32 × Int32 × ChannelKeys × Nat :=
  (c.remoteKey, c.date, c.keys, c.ticket)

namespace Pair

/-- The peer was known to have started, and now it is known to have started later. -/
def Restarts (p q : Pair) : Prop := p.peerReinitDate ≠ 0 ∧ p.peerReinitDate < q.peerReinitDate

/-- The event brings a key, and the inbound id of the channel that it leads to is taken. -/
def Collides (K : KeyScheme) (p : Pair) : Event → Prop
  | .create routes key date =>
    ∃ id kind, (p.onCreateChannel K routes key date).1 = .error (.idCollision id kind)
  | .confirm routes key peerKey date =>
    ∃ id kind, (p.onConfirmChannel K routes key peerKey date).1 = .error (.idCollision id kind)
  | _ => False

/-- The event neither closes the pair nor shows that the peer has started again, and no id that it
leads to is taken. -/
structure Within (K : KeyScheme) (p : Pair) (e : Event) : Prop where
  stays : e ≠ .close
  free : ¬ p.Collides K e
  steady : List.IsChain (fun q r => ¬ q.Restarts r) (p :: (p.stages K e ++ [p.after K e]))

def OneEpoch (K : KeyScheme) (p : Pair) : List Event → Prop
  | [] => True
  | e :: es => p.Within K e ∧ OneEpoch K (p.after K e) es

/-- How the channel goes on: it stays, it becomes ready, or another one with a later date takes its
place. A new one that is not ready comes from an announcement. -/
inductive Succession (K : KeyScheme) (p : Pair) (e : Event) : Option Channel → Prop
  | kept : Succession K p e p.channel
  | readied : Succession K p e p.markReady.channel
  | installed (c : Channel) (hnew : p.Supersedes c.remoteKey c.date)
    (hready : c.ready ∨ ∃ routes m, e = .create routes c.remoteKey c.date ∧
      (p.onCreateChannel K routes c.remoteKey c.date).1 = .ok m) : Succession K p e (some c)

section
variable {K : KeyScheme} {p : Pair}

theorem channel_raise {date now : Int32} (h : ¬ p.Restarts (p.raise date now)) :
    (p.raise date now).channel = p.channel := by
  by_cases hr : p.isFuture date now = false ∧ p.peerReinitDate < date
  · rw [raise_of_lt hr.1 hr.2] at h ⊢
    have hzero : p.peerReinitDate = 0 := by
      by_contra hne
      exact h ⟨hne, by rw [peerReinitDate_reinit]; exact hr.2⟩
    rw [reinit_of_eq_zero hzero]
  · exact congrArg Pair.channel (if_neg hr)

theorem channel_checkPacket {packet : Packet} {source : Address} {viaChannel : Bool} {now : Int32}
    (h : p.Within K (.packet packet source viaChannel now)) :
    (p.checkPacket K packet source viaChannel now).2.channel = p.channel := by
  by_cases hpass : p.authenticate K packet viaChannel = .ok () ∧ p.Timely packet now
  · obtain ⟨ha, ht⟩ := hpass
    have hsteady := h.steady
    rw [stages_packet ha ht] at hsteady
    obtain ⟨hfirst, hsteady⟩ := List.isChain_cons_cons.1 hsteady
    have hsecond := (List.isChain_cons_cons.1 hsteady).1
    have hdated : (p.dated packet now).channel = p.channel := by
      obtain hd | ⟨date, hd⟩ := dated_eq p packet now <;> rw [hd] at hfirst ⊢
      exact channel_raise hfirst
    have hscreened : (p.screened packet now).channel = p.channel := by
      rw [screened, snd_screenLists] at hsecond ⊢
      cases hl : packet.address with
      | none => exact hdated
      | some l =>
        rw [hl] at hsecond
        exact (channel_raise hsecond).trans hdated
    obtain ⟨_, _, _, _, _, hc⟩ := checkPacket_eq_of_timely ha ht source
    rw [hc]
    exact hscreened
  · rw [checkPacket_eq_self (not_and_or.1 hpass)]

theorem succession_create {routes : RouteTable} {key : Bytes32} {date : Int32}
    (h : p.Within K (.create routes key date)) : Succession K p (.create routes key date)
      (p.onCreateChannel K routes key date).2.1.channel := by
  have hfree := h.free
  have hi := p.installing K routes key date false
  have heq := p.onCreateChannel_eq K routes key date
  generalize p.install K routes key date false = result at hi heq
  rw [heq]
  cases hi with
  | known => exact .kept
  | stale => exact .kept
  | disagreed => exact .kept
  | collided => exact absurd ⟨_, _, congrArg Prod.fst heq⟩ hfree
  | installed hnew => exact .installed _ hnew (.inr ⟨routes, _, rfl, congrArg Prod.fst heq⟩)

theorem succession_confirm {routes : RouteTable} {key peerKey : Bytes32} {date : Int32}
    (h : p.Within K (.confirm routes key peerKey date)) :
    Succession K p (.confirm routes key peerKey date)
      (p.onConfirmChannel K routes key peerKey date).2.1.channel := by
  have hfree := h.free
  simp only [Collides] at hfree
  rw [onConfirmChannel] at hfree ⊢
  split_ifs at hfree ⊢
  · have hi := p.installing K routes key date true
    generalize p.install K routes key date true = result at hi hfree ⊢
    cases hi with
    | known => exact .readied
    | stale => exact .kept
    | disagreed => exact .kept
    | collided => exact absurd ⟨_, _, rfl⟩ hfree
    | installed hnew => exact .installed _ hnew (.inl rfl)
  · exact .kept

/-- What an event of the epoch does to the channel. -/
theorem succession_after {e : Event} (h : p.Within K e) :
    Succession K p e (p.after K e).channel := by
  have hkept (hc : (p.after K e).channel = p.channel) : Succession K p e (p.after K e).channel := by
    rw [hc]
    exact .kept
  cases e with
  | packet packet source viaChannel now => exact hkept (channel_checkPacket h)
  | date date now =>
    refine hkept ?_
    have hsteady := List.isChain_pair.1 h.steady
    rw [after, snd_observeDate] at hsteady ⊢
    exact channel_raise hsteady
  | list l =>
    obtain ⟨_, _, hl⟩ := p.updateList_eq l
    refine hkept ?_
    rw [after, hl]
  | create routes key date => exact succession_create h
  | confirm routes key peerKey date => exact succession_confirm h
  | ready => exact .readied
  | close => exact absurd rfl h.stays
  | collect first queue =>
    refine hkept ?_
    rw [after, snd_collect]
  | route packet =>
    obtain ⟨_, hr⟩ := p.snd_route K packet
    refine hkept ?_
    rw [after, hr]
  | build => exact .kept
  | part => exact .kept
  | drawFill => exact .kept

end

/-- The channel after an event, if more has changed about it than that it has become ready. -/
def installed? (K : KeyScheme) (p : Pair) (e : Event) : Option Channel :=
  (p.after K e).channel.filter fun c => p.channel.map Channel.lasting ≠ some c.lasting

def installs (K : KeyScheme) (p : Pair) : List Event → List Channel
  | [] => []
  | e :: es => (p.installed? K e).toList ++ installs K (p.after K e) es

def channels (K : KeyScheme) (p : Pair) (es : List Event) : List Channel :=
  p.channel.toList ++ p.installs K es

section
variable {K : KeyScheme} {p : Pair}

@[simp] theorem lasting_markReady (p : Pair) :
    p.markReady.channel.map Channel.lasting = p.channel.map Channel.lasting := by
  rw [markReady]
  cases p.channel <;> rfl

/-- Either nothing is installed and the channel has stayed, but for its readiness, or a channel has
been installed whose date is later. -/
theorem installed?_cases {e : Event} (h : p.Within K e) :
    p.installed? K e = none ∧
        (p.after K e).channel.map Channel.lasting = p.channel.map Channel.lasting ∨
      ∃ c, p.installed? K e = some c ∧ (p.after K e).channel = some c ∧
        p.Supersedes c.remoteKey c.date := by
  have hs := succession_after h
  have hstays (hsame : (p.after K e).channel.map Channel.lasting = p.channel.map Channel.lasting) :
      p.installed? K e = none := by
    rw [installed?, Option.filter_eq_none_iff, ← hsame]
    rintro c hc
    simp [hc]
  generalize hafter : (p.after K e).channel = after at hs
  cases hs with
  | kept =>
    rw [hafter] at hstays
    exact .inl ⟨hstays rfl, rfl⟩
  | readied =>
    rw [hafter] at hstays
    exact .inl ⟨hstays p.lasting_markReady, p.lasting_markReady⟩
  | installed c hnew =>
    refine .inr ⟨c, ?_, rfl, hnew⟩
    rw [installed?, hafter, Option.filter_eq_some_iff]
    refine ⟨rfl, ?_⟩
    cases hc : p.channel with
    | none => rfl
    | some b =>
      have hne : b.lasting ≠ c.lasting := fun he => (hnew b hc).1 (congrArg Prod.fst he)
      simpa using hne

theorem channels_cons {e : Event} (h : p.Within K e) (es : List Event) :
    (p.channels K (e :: es)).map Channel.lasting =
        ((p.after K e).channels K es).map Channel.lasting ∨
      p.channels K (e :: es) = p.channel.toList ++ (p.after K e).channels K es ∧
        ∃ c, (p.after K e).channel = some c ∧ p.Supersedes c.remoteKey c.date := by
  obtain ⟨hnone, hsame⟩ | ⟨c, hc, hafter, hnew⟩ := installed?_cases h
  · left
    have htoList : p.channel.toList.map Channel.lasting =
        (p.after K e).channel.toList.map Channel.lasting := by
      rw [← Option.toList_map, ← Option.toList_map, hsame]
    simp only [channels, installs, hnone, Option.toList_none, List.nil_append, List.map_append,
      htoList]
  · refine .inr ⟨?_, c, hafter, hnew⟩
    rw [channels, channels, installs, hc, hafter]

variable {es : List Event}

theorem isChain_date_channels (h : p.OneEpoch K es) :
    List.IsChain (· < ·) ((p.channels K es).map Channel.date) := by
  induction es generalizing p with
  | nil =>
    rw [channels, installs]
    cases p.channel with
    | none => exact .nil
    | some c => exact .singleton _
  | cons e es ih =>
    obtain hsame | ⟨hinstalled, c, hafter, hnew⟩ := channels_cons h.1 es
    · have hdates := congrArg (List.map fun x => x.2.1) hsame
      rw [List.map_map, List.map_map] at hdates
      exact hdates ▸ ih h.2
    · have hrest := ih h.2
      rw [hinstalled]
      cases hc : p.channel with
      | none => exact hrest
      | some b =>
        rw [channels, hafter] at hrest ⊢
        exact .cons_cons (hnew b hc).2 hrest

theorem lasting_run (h : p.OneEpoch K es) : (p.run K es).channel.map Channel.lasting =
    (p.channels K es).getLast?.map Channel.lasting := by
  induction es generalizing p with
  | nil =>
    rw [channels, installs]
    cases hc : p.channel <;> simp [run, hc]
  | cons e es ih =>
    change ((p.after K e).run K es).channel.map Channel.lasting = _
    rw [ih h.2, ← List.getLast?_map, ← List.getLast?_map]
    obtain hsame | ⟨hinstalled, c, hafter, -⟩ := channels_cons h.1 es
    · rw [hsame]
    · have hne : ((p.after K e).channels K es).map Channel.lasting ≠ [] := by
        rw [channels, hafter]
        exact List.cons_ne_nil _ _
      rw [hinstalled, List.map_append, List.getLast?_append_of_ne_nil _ hne]

theorem exists_channel_run (h : p.OneEpoch K es) {c : Channel} (hc : c ∈ p.channels K es) :
    ∃ b, (p.run K es).channel = some b ∧ c.date ≤ b.date := by
  induction es generalizing p c with
  | nil =>
    rw [channels, installs, List.append_nil, Option.mem_toList] at hc
    exact ⟨c, hc, Int32.le_refl _⟩
  | cons e es ih =>
    change ∃ b, ((p.after K e).run K es).channel = some b ∧ _
    obtain hsame | ⟨hinstalled, d, hafter, hnew⟩ := channels_cons h.1 es
    · have hmem := hsame ▸ List.mem_map_of_mem (f := Channel.lasting) hc
      obtain ⟨c', hc', hlasting⟩ := List.mem_map.1 hmem
      have hdate : c'.date = c.date := congrArg (fun x => x.2.1) hlasting
      exact hdate ▸ ih h.2 hc'
    · rw [hinstalled] at hc
      obtain hfirst | hrest := List.mem_append.1 hc
      · have hd : d ∈ (p.after K e).channels K es := by
          rw [channels, hafter]
          exact List.mem_cons_self
        obtain ⟨b, hb, hle⟩ := ih h.2 hd
        have hlt := (hnew c (Option.mem_toList.1 hfirst)).2
        exact ⟨b, hb, Int32.le_trans (Int32.le_of_lt hlt) hle⟩
      · exact ih h.2 hrest

end

section
variable {K : KeyScheme} {q : Pair} {c : Channel}

theorem message_known (hc : q.channel = some c) (routes : RouteTable) (date : Int32) :
    (q.onCreateChannel K routes c.remoteKey date).2 = (q, routes) ∧
      ∀ peerKey, (q.onConfirmChannel K routes c.remoteKey peerKey date).2 = (q, routes) ∨
        (q.onConfirmChannel K routes c.remoteKey peerKey date).2 = (q.markReady, routes) := by
  refine ⟨?_, fun peerKey => ?_⟩
  · rw [onCreateChannel_eq, install_known _ _ _ _ hc]
    rfl
  · rw [onConfirmChannel]
    split_ifs
    · rw [install_known _ _ _ _ hc]
      exact .inr rfl
    · exact .inl rfl

theorem message_stale (hc : q.channel = some c) {key : Bytes32} {date : Int32}
    (hkey : c.remoteKey ≠ key) (hdate : date ≤ c.date) (routes : RouteTable) :
    (q.onCreateChannel K routes key date).2 = (q, routes) ∧
      ∀ peerKey, (q.onConfirmChannel K routes key peerKey date).2 = (q, routes) := by
  refine ⟨?_, fun peerKey => ?_⟩
  · rw [onCreateChannel_eq, install_stale _ _ _ _ _ hc hkey hdate]
  · rw [onConfirmChannel]
    split_ifs
    · rw [install_stale _ _ _ _ _ hc hkey hdate]
    · rfl

theorem handshake_eq_ready_iff : q.handshake = .ready ↔ ∃ c, q.channel = some c ∧ c.ready := by
  rw [handshake]
  cases q.channel with
  | none => simp only; split_ifs <;> simp
  | some c => cases hr : c.ready <;> simp [hr]

/-- Within an epoch a channel in use is only given up for one that the peer has announced. -/
theorem leaves_ready {e : Event} (h : q.Within K e) (hready : q.handshake = .ready)
    (hleft : (q.after K e).handshake ≠ .ready) : ∃ routes key date m c,
      e = .create routes key date ∧ (q.onCreateChannel K routes key date).1 = .ok m ∧
        q.channel = some c ∧ c.remoteKey ≠ key ∧ c.date < date := by
  obtain ⟨c, hc, hcready⟩ := handshake_eq_ready_iff.1 hready
  rw [ne_eq, handshake_eq_ready_iff] at hleft
  have hs := succession_after h
  generalize (q.after K e).channel = after at hs hleft
  cases hs with
  | kept => exact absurd ⟨c, hc, hcready⟩ hleft
  | readied => exact absurd ⟨{ c with ready := true }, by rw [markReady, hc]; rfl, rfl⟩ hleft
  | installed d hnew hd =>
    obtain hd | ⟨routes, m, he, hm⟩ := hd
    · exact absurd ⟨d, rfl, hd⟩ hleft
    · exact ⟨routes, _, _, m, c, he, hm, hc, hnew c hc⟩

end

/-- What holds of a pair that has come to the last of the given channels, one after the other. -/
structure NoRollback (K : KeyScheme) (channels : List Channel) (q : Pair) : Prop where
  dates : (channels.map Channel.date).Pairwise (· < ·)
  current : q.channel.map Channel.lasting = channels.getLast?.map Channel.lasting
  known : ∀ c, q.channel = some c → ∀ routes date,
    (q.onCreateChannel K routes c.remoteKey date).2 = (q, routes) ∧
      ∀ peerKey, (q.onConfirmChannel K routes c.remoteKey peerKey date).2 = (q, routes) ∨
        (q.onConfirmChannel K routes c.remoteKey peerKey date).2 = (q.markReady, routes)
  stale : ∀ c key date, q.channel = some c → c.remoteKey ≠ key → date ≤ c.date → ∀ routes,
    (q.onCreateChannel K routes key date).2 = (q, routes) ∧
      ∀ peerKey, (q.onConfirmChannel K routes key peerKey date).2 = (q, routes)
  replayed : ∀ c ∈ channels, ∀ routes,
    (q.onCreateChannel K routes c.remoteKey c.date).2 = (q, routes) ∧
      ∀ peerKey, (q.onConfirmChannel K routes c.remoteKey peerKey c.date).2 = (q, routes) ∨
        (q.onConfirmChannel K routes c.remoteKey peerKey c.date).2 = (q.markReady, routes)
  leaves_ready : ∀ e, q.Within K e → q.handshake = .ready → (q.after K e).handshake ≠ .ready →
    ∃ routes key date m c, e = .create routes key date ∧
      (q.onCreateChannel K routes key date).1 = .ok m ∧
        q.channel = some c ∧ c.remoteKey ≠ key ∧ c.date < date

/-- Whatever happens to a pair within one epoch, no channel comes back. -/
theorem no_channel_rollback {K : KeyScheme} {p : Pair} {es : List Event} (h : p.OneEpoch K es) :
    NoRollback K (p.channels K es) (p.run K es) where
  dates := List.isChain_iff_pairwise.1 (isChain_date_channels h)
  current := lasting_run h
  known _ hc := message_known hc
  stale _ _ _ hc := message_stale hc
  replayed c hc routes := by
    obtain ⟨b, hb, hle⟩ := exists_channel_run h hc
    by_cases hkey : b.remoteKey = c.remoteKey
    · exact hkey ▸ message_known hb routes c.date
    · obtain ⟨hcreate, hconfirm⟩ := message_stale (K := K) hb hkey hle routes
      exact ⟨hcreate, fun peerKey => .inl (hconfirm peerKey)⟩
  leaves_ready _ := leaves_ready

theorem Within.of_isInner {K : KeyScheme} {p : Pair} {e : Event} (h : e.isInner)
    (hstays : e ≠ .close) (hfree : ¬ p.Collides K e) : p.Within K e where
  stays := hstays
  free := hfree
  steady := by
    have hdate : (p.after K e).peerReinitDate = p.peerReinitDate :=
      congrArg Intake.date (p.intake_after K h)
    have hstages : p.stages K e = [] := by
      cases e with
      | packet => cases h
      | _ => rfl
    rw [hstages]
    exact List.isChain_pair.2 fun hr => Int32.lt_irrefl (hdate ▸ hr.2)

/-- The peer announces a key, uses the channel, and announces another key. -/
def rekeying : List Event :=
  [.create {} (.replicate 32 9) 100, .ready, .create {} (.replicate 32 10) 101]

/-- The first announcement comes again, and the second channel stays. -/
theorem no_channel_rollback_rekeying :
    blank.OneEpoch .transparent rekeying ∧
      (blank.channels .transparent rekeying).map (fun c => (c.remoteKey, c.date)) =
        [(.replicate 32 9, 100), (.replicate 32 10, 101)] ∧
      ((blank.run .transparent rekeying).onCreateChannel .transparent {} (.replicate 32 9) 100).2 =
        (blank.run .transparent rekeying, {}) := by
  have h : blank.OneEpoch .transparent rekeying :=
    ⟨.of_isInner rfl nofun (by rintro ⟨_, _, ⟨⟩⟩), .of_isInner rfl nofun id,
      .of_isInner rfl nofun (by rintro ⟨_, _, ⟨⟩⟩), trivial⟩
  have hchannels : (blank.channels .transparent rekeying).map (fun c => (c.remoteKey, c.date)) =
      [(.replicate 32 9, 100), (.replicate 32 10, 101)] := by decide +kernel
  have hfirst : (.replicate 32 9, 100) ∈
      (blank.channels .transparent rekeying).map (fun c => (c.remoteKey, c.date)) := by
    rw [hchannels]
    exact List.mem_cons_self
  obtain ⟨c, hc, hcreated⟩ := List.mem_map.1 hfirst
  obtain ⟨hkey, hdate⟩ := Prod.mk.inj hcreated
  exact ⟨h, hchannels, hkey ▸ hdate ▸ ((no_channel_rollback h).replayed c hc {}).1⟩

end Pair

end Adnl
