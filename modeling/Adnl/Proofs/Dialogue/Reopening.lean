import Adnl.Proofs.Dialogue.Restart
import Adnl.Proofs.Host.Contact

/-! # One end closes its conversation and starts it again

The node stays the same, and so does its date. The other end has no reason to start over: it keeps
its window, its numbers and what it confirms. The new pair counts from one again, so its packets
meet the numbers that its predecessor has used up, and it is told of the receipt of packets that it
has not sent yet.
-/
namespace Adnl

/-- What the next conversation on a host starts with, for a node that was `p` before. -/
def Party.reopened (p : Party) (h : Host) (known : AddressList) (date : Int32) : Party :=
  { p with
    known
    config := h.config
    start := date
    supply := h.supplies h.conversations.length }

namespace Host

/-- After a conversation has been closed, contact with the same identity starts one with a new
pair, for the same node. -/
theorem connect_close (h : Host) {n i : Nat} {node : Node} {c : Conversation} {p : Party}
    (hn : h.nodes[n]? = some node) (hopen : node.isClosed = false) (hown : node.own = p.own)
    (hc : h.conversations[i]? = some c) (remote : Descriptor)
    (hpeer : node.peers.lookup remote.key.shortId = some i) (date : Int32) :
    ∃ h' c', (h.close i).connect n remote date = (.ok h.conversations.length, h') ∧
      h'.conversations[h.conversations.length]? = some c' ∧
      c'.pair = (p.reopened h remote.addresses date).pair remote.key := by
  obtain ⟨effects, hclose⟩ := h.close_eq hc
  have hlive := h.live?_close hn hc hpeer
  have hlength : (h.close i).conversations.length = h.conversations.length := by
    rw [hclose, List.length_set]
  have hn' : (h.close i).nodes[n]? = some node := by
    rw [hclose]
    exact hn
  obtain ⟨h', c', hconnect, hc', hpair⟩ :=
    (h.close i).connect_of_live?_eq_none hn' hopen hlive date
  rw [hlength] at hconnect hc' hpair
  refine ⟨h', c', hconnect, hc', ?_⟩
  rw [hpair, hclose, hown]
  rfl

end Host

namespace Dialogue

variable {K : KeyScheme} {P : Side → Party} {Q : Party} {s : Side} {first : Nat} {d d' : Dialogue}

/-- The end `s` has a new pair, of the same date as before, since it had built `first` packets. The
other end goes on as before. -/
structure Reopened (K : KeyScheme) (P : Side → Party) (Q : Party) (s : Side) (first : Nat)
    (d : Dialogue) : Prop extends Renewed K P Q s first d where
  other : (d s.other).Sound K (P s.other).own (P s).own {}
  numbered : ∀ i g, (d s).built[i]? = some g → i < first → g.number = issued (i + 1)

theorem Reopened.genuine (hd : d.Reopened K P Q s first) (hQ : Q.own = (P s).own) {i : Nat}
    {g : SentPacket} (hg : (d s).built[i]? = some g) : g.Genuine K (P s).own := by
  by_cases hi : i < first
  · exact hd.old i g hg hi
  · rw [← hQ]
    exact (hd.sound.genuine i g hg (Nat.le_of_not_lt hi)).1

theorem Reopened.stepped (hK : K.AcceptsOwn) (hQ : Q.own = (P s).own)
    (hd : d.Reopened K P Q s first) (h : Stepped K d d') : d'.Reopened K P Q s first := by
  have hother (i : Nat) (g : SentPacket) (hg : (d s.other).built[i]? = some g) :
      g.Genuine K (P s.other).own := (hd.other.genuine i g hg (Nat.zero_le _)).1
  refine { hd.toRenewed.stepped hK hother h with other := ?_, numbered := fun i g hg hi => ?_ }
  · have hs := h s.other
    rw [Side.other_other] at hs
    generalize d' s.other = e at hs ⊢
    cases hs with
    | same => exact hd.other
    | acted hin => exact hd.other.act hK (P s.other).list_le (P s).date_nonneg hin
    | received hg source now =>
      exact hd.other.receive (hd.genuine hQ hg) (Nat.zero_le _) source now
  · have hlt : i < (d s).built.length := Nat.lt_of_lt_of_le hi hd.sound.base_le
    exact hd.numbered i g (h.built_of_lt hg hlt) hi

theorem reopened_restart (hd : d.Steady K P) (s : Side) (Q : Party) :
    (d.restart s Q).Reopened K P Q s (d s).built.length where
  toRenewed := (unaware_restart hd s Q).toRenewed
  other := (unaware_restart hd s Q).other.sound
  numbered i g hg _ := by
    rw [restart_self] at hg
    exact ((hd.sound s).numbered i g hg (Nat.zero_le _)).1

section
variable {i : Nat} {g : SentPacket} {now : Int32}

theorem Reopened.accepts_other_iff (hd : d.Reopened K P Q s first) (hQ : Q.own = (P s).own)
    (hg : (d s).built[i]? = some g) (hi : first ≤ i)
    (hnow : (d s.other).pair.isFuture (P s).own.reinitDate now = false) (source : Address) :
    d.Accepts K s.other g source now ↔
      ∀ a ∈ (d s.other).arrivals, a.marked → a.LeavesRoom g.number := by
  have hsound : (d s).Sound K (P s).own (P s.other).own ⟨first, first, 0⟩ := hQ ▸ hd.sound
  have hconfirms : g.confirms ≤ (d s.other).pair.sent.last :=
    hd.other.confirms_le hsound (hd.honest s) hg hi fun _ _ _ _ => Nat.zero_le _
  refine (hd.other.accepts_iff_leavesRoom hsound (P s).date_nonneg hg hi hi hnow source).trans ?_
  constructor
  · exact fun h a ha hm => h.1 a ha hm (Nat.zero_le _)
  · exact fun h => ⟨fun a ha hm _ => h a ha hm, hconfirms⟩

/-- To the new pair, what it is told of the receipt of its packets stands in the way, too. -/
theorem Reopened.accepts_iff (hd : d.Reopened K P Q s first) (hQ : Q.own = (P s).own)
    (hg : (d s.other).built[i]? = some g)
    (hnow : (d s).pair.isFuture (P s.other).own.reinitDate now = false) (source : Address) :
    d.Accepts K s g source now ↔
      (∀ a ∈ (d s).arrivals, a.marked → a.LeavesRoom g.number) ∧
        g.confirms ≤ (d s).pair.sent.last := by
  have hsound : (d s).Sound K (P s).own (P s.other).own ⟨first, first, 0⟩ := hQ ▸ hd.sound
  refine (hsound.accepts_iff_leavesRoom hd.other (P s.other).date_nonneg hg (Nat.zero_le _)
    (Nat.zero_le _) hnow source).trans (and_congr_left fun _ => ?_)
  exact ⟨fun h a ha hm => h a ha hm (Nat.zero_le _), fun h a ha hm _ => h a ha hm⟩

/-- The new pair takes the numbers of its predecessor. -/
theorem Reopened.number_eq (hd : d.Reopened K P Q s first) {a : Arrival}
    (ha : a ∈ (d s.other).arrivals) (hold : a.index < first) (hg : (d s).built[i]? = some g)
    (hi : a.index + first = i) : a.number = g.number := by
  subst hi
  have hplace : a.index + first - first = a.index := Nat.add_sub_cancel ..
  rw [(hd.sound.numbered _ g hg (Nat.le_add_left _ _)).1, hplace]
  exact hd.numbered a.index a.sent (hd.honest.other s a ha) hold

end

/-- A node closes a conversation and starts it again, whatever has gone to and fro before. A packet
of the new pair is accepted when every number that the other end has marked, of either pair, leaves
room for its own; so it is refused when the packet of its place was marked before. A packet of the
other end is accepted by the new pair when the numbers marked there leave room for its own and it
confirms no more than the new pair has sent. -/
theorem accepts_after_reopening_iff (hK : K.AcceptsOwn) (P : Side → Party) (before : List Move)
    {d : Dialogue} (hd : (start K P).run K before = d) (s : Side) {h : Host} {n i : Nat}
    {node : Node} {c : Conversation} (hn : h.nodes[n]? = some node) (hopen : node.isClosed = false)
    (hown : node.own = (P s).own) (hc : h.conversations[i]? = some c)
    (hpair : c.pair = (d s).pair)
    (hpeer : node.peers.lookup c.pair.remote.key.shortId = some i) (known : AddressList)
    (date : Int32) {Q : Party} (hQ : (P s).reopened h known date = Q) :
    (∃ h' c', (h.close i).connect n ⟨c.pair.remote.key, known⟩ date =
        (.ok h.conversations.length, h') ∧
      h'.conversations[h.conversations.length]? = some c' ∧ c'.pair = (d.restart s Q s).pair) ∧
    ∀ after f, (d.restart s Q).run K after = f → ∀ k g source now,
      ((f s).built[k]? = some g → (d s).built.length ≤ k →
        (f s.other).pair.isFuture (P s).own.reinitDate now = false →
        (f.Accepts K s.other g source now ↔
          ∀ a ∈ (f s.other).arrivals, a.marked → a.LeavesRoom g.number) ∧
        ∀ a ∈ (f s.other).arrivals, a.marked → a.index < (d s).built.length →
          a.index + (d s).built.length = k → ¬ f.Accepts K s.other g source now) ∧
      ((f s.other).built[k]? = some g →
        (f s).pair.isFuture (P s.other).own.reinitDate now = false →
        (f.Accepts K s g source now ↔
          (∀ a ∈ (f s).arrivals, a.marked → a.LeavesRoom g.number) ∧
            g.confirms ≤ (f s).pair.sent.last)) := by
  subst hQ
  have hsteady : d.Steady K P := hd ▸ steady_run hK P before
  obtain ⟨h', c', hconnect, hc', hpair'⟩ :=
    h.connect_close hn hopen hown hc ⟨c.pair.remote.key, known⟩ hpeer date
  refine ⟨⟨h', c', hconnect, hc', ?_⟩, ?_⟩
  · rw [restart_self, hpair', hpair]
  · intro after f hf k g source now
    have hend : f.Reopened K P ((P s).reopened h known date) s (d s).built.length :=
      hf ▸ run_induction (fun _ _ hstep hd => hd.stepped hK rfl hstep)
        (reopened_restart hsteady s _) after
    refine ⟨fun hg hk hnow => ?_, fun hg hnow => hend.accepts_iff rfl hg hnow source⟩
    have hiff := hend.accepts_other_iff rfl hg hk hnow source
    refine ⟨hiff, fun a ha hm hold hplace hok => ?_⟩
    exact (hiff.1 hok a ha hm).1 (hend.number_eq ha hold hg hplace)

/-- Each of the strangers has sent the other one a packet. -/
def conversed : Dialogue := (start .transparent strangers).run .transparent
  [building .left, arriving .right 0, building .right, arriving .left 0]

def conversing : Node where
  own := (strangers .left).own
  id := ((strangers .left).own.key .transparent).shortId
  ticket := 0
  messageHandlers := 0
  queryHandlers := []
  inbox := { capacity := 0 }
  peers := [(((strangers .right).own.key .transparent).shortId, 0)]
  announced := .ofCapacity 0

def hosting : Host :=
  { Host.bind ⟨.v4 0, 0⟩ {} (fun _ => .zeros) 0 with
    nodes := [conversing]
    conversations := [.new 0 {} (conversed .left).pair] }

def reopened : Party := (strangers .left).reopened hosting {} 200

def resuming : Dialogue :=
  (conversed.restart .left reopened).run .transparent [building .left]

def resumedPacket : SentPacket := (resuming .left).built.getD 1 ⟨{}, false⟩

theorem resuming_marks :
    (conversed .left).built.length = 1 ∧ (resuming .left).built[1]? = some resumedPacket ∧
      (∃ a ∈ (resuming .right).arrivals, a.marked ∧ a.index = 0) ∧
      (resuming .right).pair.isFuture (strangers .left).own.reinitDate 200 = false ∧
      ((resuming .right).pair.checkPacket .transparent resumedPacket.packet ⟨.v4 0, 0⟩
        resumedPacket.viaChannel 200).1 = .error (.replay 1) := by
  decide +kernel

/-- The first packet of the new pair has the number of the one that was marked before. -/
theorem accepts_after_reopening_iff_conversed :
    ¬ resuming.Accepts .transparent .right resumedPacket ⟨.v4 0, 0⟩ 200 := by
  have hd : (start .transparent strangers).run .transparent
      [building .left, arriving .right 0, building .right, arriving .left 0] = conversed := rfl
  have hkey : (conversed .left).pair.remote.key = (strangers .right).own.key .transparent :=
    ((steady_run KeyScheme.acceptsOwn_transparent strangers _).sound .left).peer_eq
  have hn : hosting.nodes[0]? = some conversing := rfl
  have hc : hosting.conversations[0]? = some (.new 0 {} (conversed .left).pair) := rfl
  have hpair : (Conversation.new 0 {} (conversed .left).pair).pair = (conversed .left).pair := rfl
  have hpeer : conversing.peers.lookup (conversed .left).pair.remote.key.shortId = some 0 := by
    rw [hkey, conversing, List.lookup_cons_self]
  have hQ : (strangers .left).reopened hosting {} 200 = reopened := rfl
  have hf : (conversed.restart .left reopened).run .transparent [building .left] = resuming := rfl
  have hafter := (accepts_after_reopening_iff KeyScheme.acceptsOwn_transparent strangers _ hd .left
    hn rfl rfl hc hpair hpeer {} 200 hQ).2 _ resuming hf
  obtain ⟨hlength, hbuilt, ⟨a, ha, hm, hindex⟩, hnow, -⟩ := resuming_marks
  have hrefused := ((hafter 1 _ ⟨.v4 0, 0⟩ 200).1 hbuilt hlength.le hnow).2
  exact hrefused a ha hm (by omega) (by omega)

/-- The first delivery of the first packet of the new pair is refused. -/
theorem replay_after_reopening :
    (resuming .left).built[1]? = some resumedPacket ∧
      ((resuming .right).pair.checkPacket .transparent resumedPacket.packet ⟨.v4 0, 0⟩
        resumedPacket.viaChannel 200).1 = .error (.replay 1) := by
  obtain ⟨-, hbuilt, -, -, hrefused⟩ := resuming_marks
  exact ⟨hbuilt, hrefused⟩

end Dialogue

end Adnl
