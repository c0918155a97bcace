import Adnl.Conversation.Run
import Adnl.Proofs.Agreement.Turns

/-! # Turns as series of iterations

The receiving side handles a message at a time, and the inward side of the channel opens a datagram
at a time. What either does in a turn is what it does in some number of iterations.
-/
namespace Adnl.Turn

/-- The message that the next iteration of the receiving side handles. -/
def handles? (t : Turn) : Option Message :=
  if t.conversation.isDeaf || t.conversation.outbox.receiverWaits then none
  else t.conversation.work.head?

/-- One iteration of the receiving side, which ends when the conversation is closed. -/
def receiveNext (K : KeyScheme) (now : Moment) (t : Turn) : Turn :=
  if t.conversation.isDeaf || t.conversation.outbox.receiverWaits then t
  else if t.conversation.work = [] ∧ t.conversation.isClosed then t.finishReceiving
  else t.receiveOne K now

theorem exists_receiveAll_eq_receiveNext (K : KeyScheme) (now : Moment) (t : Turn) :
    ∃ n, t.receiveAll K now = (receiveNext K now)^[n] t := by
  fun_induction receiveAll K now t with
  | case1 t => exact ⟨0, rfl⟩
  | case2 t hguard m rest hwork ih =>
    obtain ⟨n, hn⟩ := ih
    have hstep : (t.setWork rest).handle K now m = t.receiveNext K now := by
      simp [receiveNext, receiveOne, hguard, hwork]
    exact ⟨n + 1, by rw [hn, hstep, Function.iterate_succ_apply]⟩
  | case3 t hguard hwork hclosed =>
    have hstep : t.finishReceiving = t.receiveNext K now := by
      simp [receiveNext, hguard, hwork, hclosed]
    exact ⟨1, by rw [hstep, Function.iterate_one]⟩
  | case4 t => exact ⟨0, rfl⟩
  | case5 t hguard hwork hclosed i rest hinput ih =>
    obtain ⟨n, hn⟩ := ih
    have hstep :
        ({ t with conversation := { t.conversation with input := rest } } : Turn).takePacket K now
          i = t.receiveNext K now := by
      simp [receiveNext, receiveOne, hguard, hwork, hclosed, hinput]
    exact ⟨n + 1, by rw [hn, hstep, Function.iterate_succ_apply]⟩

def isAtRest (t : Turn) : Bool :=
  t.conversation.isDeaf || t.conversation.outbox.receiverWaits ||
    (t.conversation.work.isEmpty && !t.conversation.isClosed && t.conversation.input.isEmpty)

theorem receiveAll_of_isAtRest (K : KeyScheme) (now : Moment) {t : Turn} (h : t.isAtRest) :
    t.receiveAll K now = t := by
  by_cases hguard : t.conversation.isDeaf || t.conversation.outbox.receiverWaits
  · rw [receiveAll, if_pos hguard]
  · simp only [isAtRest, Bool.eq_false_iff.2 hguard, Bool.false_or, Bool.and_eq_true,
      List.isEmpty_iff, Bool.not_eq_true'] at h
    obtain ⟨⟨hwork, hopen⟩, hinput⟩ := h
    rw [receiveAll, if_neg hguard, if_neg (Bool.eq_false_iff.1 hopen)]
    split
    · next heq =>
      rw [hwork] at heq
      cases heq
    · split
      · rfl
      · next heq =>
        rw [hinput] at heq
        cases heq

theorem receiveAll_receiveNext (K : KeyScheme) (now : Moment) (t : Turn) :
    (t.receiveNext K now).receiveAll K now = t.receiveAll K now := by
  rw [receiveNext]
  split_ifs with hguard hends
  · rfl
  · have hover : t.finishReceiving.isAtRest := rfl
    rw [receiveAll_of_isAtRest K now hover, receiveAll, if_neg hguard]
    split
    · next heq =>
      rw [hends.1] at heq
      cases heq
    · rw [if_pos hends.2]
  · rw [receiveOne, if_neg hguard]
    conv_rhs => rw [receiveAll, if_neg hguard]
    cases hwork : t.conversation.work with
    | cons m rest => rfl
    | nil =>
      have hopen : ¬ t.conversation.isClosed = true := fun hclosed => hends ⟨hwork, hclosed⟩
      dsimp only
      rw [if_neg hopen]
      cases hinput : t.conversation.input with
      | nil => exact receiveAll_of_isAtRest K now (by simp [isAtRest, hwork, hopen, hinput])
      | cons i rest => rfl

/-- A turn of the receiving side is as many iterations as it takes to come to rest. -/
theorem receiveAll_eq_iterate (K : KeyScheme) (now : Moment) {n : Nat} {t : Turn}
    (h : ((receiveNext K now)^[n] t).isAtRest) :
    t.receiveAll K now = (receiveNext K now)^[n] t := by
  induction n generalizing t with
  | zero => exact receiveAll_of_isAtRest K now h
  | succ n ih =>
    rw [Function.iterate_succ_apply] at h ⊢
    rw [← ih h, receiveAll_receiveNext]

/-- What a turn of the receiving side comes to when this many iterations bring it to rest. -/
def receiveFor (K : KeyScheme) (now : Moment) (n : Nat) (t : Turn) : Turn :=
  let full := t.conversation.config.queueCapacity ≤ t.conversation.input.length
  let t := (receiveNext K now)^[n] t
  if full then t.signal (.wake .unlock) else t

theorem receive_eq_receiveFor (K : KeyScheme) (now : Moment) {n : Nat} {t : Turn}
    (h : ((receiveNext K now)^[n] t).isAtRest) : t.receive K now = t.receiveFor K now n := by
  rw [receive, receiveAll_eq_iterate K now h]
  rfl

theorem receiveNext_of_isClosed_eq_false (K : KeyScheme) (now : Moment) {t : Turn}
    (h : t.conversation.isClosed = false) : t.receiveNext K now = t.receiveOne K now := by
  simp only [receiveNext, h, Bool.false_eq_true, and_false, if_false]
  split_ifs with hguard
  · rw [receiveOne, if_pos hguard]
  · rfl

theorem isClosed_receiveOne (K : KeyScheme) (now : Moment) (t : Turn) :
    (t.receiveOne K now).conversation.isClosed = t.conversation.isClosed := by
  rw [receiveOne]
  split_ifs
  · rfl
  · split
    · exact isClosed_handle K _ now _
    · split
      · rfl
      · exact isClosed_takePacket K _ now _

theorem exists_receiveAll_eq_receiveOne (K : KeyScheme) (now : Moment) {t : Turn}
    (h : t.conversation.isClosed = false) :
    ∃ n, t.receiveAll K now = (receiveOne K now)^[n] t := by
  obtain ⟨n, hn⟩ := t.exists_receiveAll_eq_receiveNext K now
  refine ⟨n, hn.trans ?_⟩
  clear hn
  induction n generalizing t with
  | zero => rfl
  | succ n ih =>
    rw [Function.iterate_succ_apply, Function.iterate_succ_apply,
      receiveNext_of_isClosed_eq_false K now h]
    exact ih ((t.isClosed_receiveOne K now).trans h)

theorem Settled.keeps_receiveAll {K : KeyScheme} {secret : Bytes32} {o o' : Opening}
    {answered : Prop} {t : Turn} (h : t.Settled K secret o o' answered)
    (hagree : K.agree o.channelSeed ⟨o'.channelKey K⟩ = .ok secret)
    (hopen : t.conversation.isClosed = false) (now : Moment) :
    t.Keeps K secret o o' answered (t.receiveAll K now) := by
  obtain ⟨n, hn⟩ := exists_receiveAll_eq_receiveOne K now hopen
  rw [hn]
  clear hn hopen
  induction n generalizing t with
  | zero => exact h.keeps_self
  | succ n ih =>
    have hfirst := h.keeps_receiveOne hagree now
    exact hfirst.trans (ih hfirst.settled)

def setQueue (t : Turn) (datagrams : List Datagram) : Turn :=
  { t with conversation := { t.conversation with
    inbox := { t.conversation.inbox with datagrams } } }

/-- The datagram that the next iteration of the channel's inward side opens. -/
def opens? (t : Turn) : Option Datagram :=
  if t.conversation.isClosed || t.conversation.config.queueCapacity ≤ t.conversation.input.length
  then none
  else t.conversation.inbox.datagrams.head?

def unlockNext (t : Turn) : Turn :=
  if t.conversation.isClosed then t.closeInbox
  else
    match t.conversation.pair.channel, t.conversation.inbox.datagrams with
    | some channel, d :: rest =>
      if t.conversation.config.queueCapacity ≤ t.conversation.input.length then t
      else
        match (t.setQueue rest).unlockDatagram channel d with
        | (true, t) => t
        | (false, t) => t.closeInbox
    | _, _ => t

theorem become_markReady (t : Turn) : t.become t.conversation.pair.markReady t.routes =
    { t with conversation := { t.conversation with pair := t.conversation.pair.markReady } } := by
  have hticket : ({ t.conversation with
      pair := t.conversation.pair.markReady } : Conversation).ticket? =
      t.conversation.ticket? := by
    simp only [Conversation.ticket?, Pair.markReady, Option.map_map]
    rfl
  simp only [become, Pair.closeReplaced_markReady, hticket, if_true]

/-- Opening a datagram does not look at those behind it. -/
theorem unlockDatagram_setQueue (t : Turn) (c : Channel) (d : Datagram) (ds : List Datagram) :
    (t.setQueue ds).unlockDatagram c d =
      ((t.unlockDatagram c d).1, (t.unlockDatagram c d).2.setQueue ds) := by
  simp only [unlockDatagram, become_markReady]
  split
  · rfl
  · split
    · rfl
    · rfl
    · by_cases hdeaf : t.conversation.isDeaf
      · simp [setQueue, hdeaf]
      · simp only [setQueue, hdeaf, pass, Bool.false_eq_true, if_false]
        split_ifs <;> rfl

/-- A datagram that opens makes the channel ready; nothing else happens to the pair. -/
theorem snd_unlockDatagram (t : Turn) (c : Channel) (d : Datagram) :
    ∃ pair input signals, (t.unlockDatagram c d).2 =
        { t with conversation := { t.conversation with pair, input }, signals } ∧
      (pair = t.conversation.pair ∨ pair = t.conversation.pair.markReady ∧
        ∃ data, Envelope.unlock c.keys.decrypt d.payload = .ok data) := by
  simp only [unlockDatagram, become_markReady]
  split
  · exact ⟨_, _, _, rfl, .inl rfl⟩
  · next data hdata =>
    split
    · exact ⟨_, _, _, rfl, .inr ⟨rfl, data, hdata⟩⟩
    · exact ⟨_, _, _, rfl, .inr ⟨rfl, data, hdata⟩⟩
    · split_ifs
      · exact ⟨_, _, _, rfl, .inr ⟨rfl, data, hdata⟩⟩
      · simp only [pass]
        split_ifs <;> exact ⟨_, _, _, rfl, .inr ⟨rfl, data, hdata⟩⟩

theorem unlockDatagram_congr {c c' : Channel} (h : c.keys = c'.keys) (t : Turn) (d : Datagram) :
    t.unlockDatagram c d = t.unlockDatagram c' d := by
  simp only [unlockDatagram, h]

theorem unlockNext_setQueue_cons {t : Turn} {c : Channel}
    (hopen : t.conversation.isClosed = false)
    (hchannel : t.conversation.pair.channel.map Channel.keys = some c.keys)
    (hroom : ¬ t.conversation.config.queueCapacity ≤ t.conversation.input.length)
    (d : Datagram) (rest : List Datagram) :
    (t.setQueue (d :: rest)).unlockNext =
      if (t.unlockDatagram c d).1 then (t.unlockDatagram c d).2.setQueue rest
      else (t.unlockDatagram c d).2.closeInbox := by
  obtain ⟨c', hc', hkeys⟩ := Option.map_eq_some_iff.1 hchannel
  have hrest : (t.setQueue (d :: rest)).setQueue rest = t.setQueue rest := rfl
  have hc : (t.setQueue (d :: rest)).conversation.pair.channel = some c' := hc'
  have hds : (t.setQueue (d :: rest)).conversation.inbox.datagrams = d :: rest := rfl
  have hopen' : (t.setQueue (d :: rest)).conversation.isClosed = false := hopen
  have hroom' : ¬ (t.setQueue (d :: rest)).conversation.config.queueCapacity ≤
      (t.setQueue (d :: rest)).conversation.input.length := hroom
  simp only [unlockNext, hopen', hc, hds, hroom', hrest, unlockDatagram_setQueue,
    unlockDatagram_congr hkeys t d, Bool.false_eq_true, if_false]
  cases (t.unlockDatagram c d).1 <;> rfl

theorem unlockAll_setQueue_cons {t : Turn}
    (hroom : ¬ t.conversation.config.queueCapacity ≤ t.conversation.input.length) (c : Channel)
    (d : Datagram) (rest : List Datagram) :
    unlockAll c (t.setQueue []) (d :: rest) =
      if (t.unlockDatagram c d).1 then unlockAll c ((t.unlockDatagram c d).2.setQueue []) rest
      else (t.unlockDatagram c d).2.closeInbox := by
  have hroom' : ¬ (t.setQueue []).conversation.config.queueCapacity ≤
      (t.setQueue []).conversation.input.length := hroom
  simp only [unlockAll, hroom', unlockDatagram_setQueue, if_false]
  cases (t.unlockDatagram c d).1 <;> rfl

theorem exists_unlockAll_eq_unlockNext {t : Turn} {c : Channel}
    (hopen : t.conversation.isClosed = false)
    (hchannel : t.conversation.pair.channel.map Channel.keys = some c.keys) (ds : List Datagram) :
    ∃ n, unlockAll c (t.setQueue []) ds = unlockNext^[n] (t.setQueue ds) := by
  induction ds generalizing t with
  | nil => exact ⟨0, rfl⟩
  | cons d rest ih =>
    by_cases hfull : t.conversation.config.queueCapacity ≤ t.conversation.input.length
    · refine ⟨0, ?_⟩
      simp [unlockAll, setQueue, hfull]
    · have hnext := unlockNext_setQueue_cons hopen hchannel hfull d rest
      have hall := unlockAll_setQueue_cons hfull c d rest
      obtain ⟨pair, input, signals, hturn, hpair⟩ := t.snd_unlockDatagram c d
      cases hgo : (t.unlockDatagram c d).1 with
      | false =>
        refine ⟨1, ?_⟩
        rw [hall, Function.iterate_one, hnext, hgo]
        rfl
      | true =>
        have hopen' : (t.unlockDatagram c d).2.conversation.isClosed = false := by
          rw [hturn]
          exact hopen
        -- The datagram may have made the channel ready, which does not touch its keys.
        have hchannel' : (t.unlockDatagram c d).2.conversation.pair.channel.map Channel.keys =
            some c.keys := by
          rw [hturn]
          rcases hpair with rfl | ⟨rfl, -⟩
          · exact hchannel
          · rw [← hchannel, Pair.markReady, Option.map_map]
            rfl
        obtain ⟨n, hn⟩ := ih hopen' hchannel'
        refine ⟨n + 1, ?_⟩
        rw [hall, Function.iterate_succ_apply, hnext, hgo]
        exact hn

/-- A turn of the channel's inward side is a series of iterations. -/
theorem exists_unlock_eq_unlockNext (t : Turn) : ∃ n, t.unlock = unlockNext^[n] t := by
  by_cases hclosed : t.conversation.isClosed
  · refine ⟨1, ?_⟩
    simp [unlock, unlockNext, hclosed]
  · cases hc : t.conversation.pair.channel with
    | none =>
      refine ⟨0, ?_⟩
      simp [unlock, hclosed, hc]
    | some c =>
      obtain ⟨n, hn⟩ := exists_unlockAll_eq_unlockNext (Bool.eq_false_iff.2 hclosed)
        (congrArg (Option.map Channel.keys) hc) t.conversation.inbox.datagrams
      refine ⟨n, ?_⟩
      have hself : t.setQueue t.conversation.inbox.datagrams = t := rfl
      rw [hself] at hn
      rw [← hn]
      simp [unlock, hclosed, hc, setQueue]

end Adnl.Turn
