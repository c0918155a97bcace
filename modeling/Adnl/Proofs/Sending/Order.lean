import Adnl.Proofs.Conversation.Frame
import Adnl.Proofs.Dialogue.Genuine
import Adnl.Proofs.Pair.Run
import Adnl.Proofs.Sending.Size

/-! # Messages leave in the order in which they were put in

What the application sends has been found small enough for any state of the handshake. So it always
has room in the packet that it opens, and packing takes messages from the front of the outbox and
puts what it takes into packets in the same order.
-/
namespace Adnl

/-- What the application sends: data, queries and answers. -/
def Message.isApplication : Message → Bool
  | .custom .. => true
  | .query .. => true
  | .answer .. => true
  | _ => false

def applicationPart (ms : List Message) : List Message := ms.filter Message.isApplication

@[simp] theorem applicationPart_append (ms ms' : List Message) :
    applicationPart (ms ++ ms') = applicationPart ms ++ applicationPart ms' :=
  List.filter_append ms ms'

namespace Pair

variable (p : Pair)

theorem mtu_raise (date now : Int32) : (p.raise date now).mtu = p.mtu := by
  rw [raise]
  split_ifs
  · obtain ⟨_, _, _, _, _, _, _, _, h⟩ := p.reinit_eq date now
    rw [h]
  · rfl

theorem mtu_checkPacket (K : KeyScheme) (packet : Packet) (source : Address) (viaChannel : Bool)
    (now : Int32) : (p.checkPacket K packet source viaChannel now).2.mtu = p.mtu := by
  apply checkPacket_preserves (P := fun q => q.mtu = p.mtu)
  · intro q date hq
    rw [mtu_raise, hq]
  · rfl
  · intro q hq
    obtain ⟨_, h⟩ := q.snd_deliver packet.seqno
    rw [h, hq]
  · intro q l hq
    obtain ⟨_, _, _, _, h⟩ := q.applyHeader_eq packet l source
    rw [h, hq]

theorem mtu_after (K : KeyScheme) (e : Event) : (p.after K e).mtu = p.mtu := by
  have hinner (h : e.isInner) : (p.after K e).mtu = p.mtu := by
    obtain ⟨_, _, _, _, _, _, _, he⟩ := p.after_eq K h
    rw [he]
  cases e with
  | packet packet source viaChannel now => exact p.mtu_checkPacket K packet source viaChannel now
  | date date now =>
    rw [after, snd_observeDate]
    exact p.mtu_raise date now
  | _ => exact hinner rfl

theorem own_after (K : KeyScheme) (e : Event) : (p.after K e).own = p.own :=
  (p.onward_after K e).own_eq

theorem applicationPart_handshakeMessage (K : KeyScheme) (first : Message) :
    applicationPart (p.handshakeMessage K first) = [] := by
  rw [handshakeMessage]
  split
  · rfl
  · split_ifs <;> rfl

/-- Nothing of the application's is lost or moved, as long as the opening message has room if it is
the application's. -/
theorem applicationPart_collect {K : KeyScheme} {p : Pair} {first : Message}
    (h : first.isApplication → p.Fits K first) (queue : List Message) :
    applicationPart ((p.collect K first queue).1.messages ++
        ((p.collect K first queue).1.overflow.toList ++ (p.collect K first queue).1.queue)) =
      applicationPart (first :: queue) := by
  have hhead := p.applicationPart_handshakeMessage K first
  by_cases hfits : p.Fits K first
  · have htake := takeFitting_partition p.mtu (p.baseSize K first + first.encodedLength) queue
    rw [fst_collect_of_fits hfits]
    simp only [List.append_assoc, List.cons_append, htake]
    rw [applicationPart_append, hhead, List.nil_append]
  · have hfirst : first.isApplication = false := by
      cases hf : first.isApplication with
      | true => exact absurd (h hf) hfits
      | false => rfl
    have htake := takeFitting_partition p.mtu (p.baseSize K first) queue
    rw [fst_collect_of_not_fits hfits]
    simp only [List.append_assoc, htake]
    rw [applicationPart_append, hhead, List.nil_append]
    simp only [applicationPart, List.filter_cons, hfirst, Bool.false_eq_true, if_false]

end Pair

namespace Outbox

/-- What an outbox still has to put into packets, in order. -/
def waiting (o : Outbox) : List Message := o.pending.toList ++ o.queue

theorem waiting_of_first? {o o' : Outbox} {m : Message} (h : o.first? = some (m, o')) :
    o.waiting = m :: o'.queue ∧ o'.parked = o.parked := by
  obtain ⟨capacity, pending, queue, parked⟩ := o
  cases pending with
  | some a =>
    simp only [first?, Option.some.injEq, Prod.mk.injEq] at h
    obtain ⟨rfl, rfl⟩ := h
    exact ⟨rfl, rfl⟩
  | none =>
    cases queue with
    | nil => cases h
    | cons a queue =>
      simp only [first?, Option.some.injEq, Prod.mk.injEq] at h
      obtain ⟨rfl, rfl⟩ := h
      exact ⟨rfl, rfl⟩

theorem pack_eq (K : KeyScheme) (p : Pair) (o : Outbox) (first : Message) :
    ((o.pack K p first).1.elim [] Packet.allMessages =
        (p.collect K first o.queue).1.messages) ∧
      (o.pack K p first).2.2 =
        { o with
          pending := (p.collect K first o.queue).1.overflow
          queue := (p.collect K first o.queue).1.queue } := by
  simp only [pack]
  split_ifs with hnone
  · exact ⟨hnone.symm, rfl⟩
  · exact ⟨Pair.allMessages_build _ _ _, rfl⟩

/-- What packing leaves is the end of the queue. -/
theorem waiting_pack_suffix (K : KeyScheme) (p : Pair) (o : Outbox) (first : Message) :
    (o.pack K p first).2.2.waiting <:+ o.queue := by
  have htake (size : Nat) := Pair.takeFitting_partition p.mtu size o.queue
  rw [(o.pack_eq K p first).2, waiting]
  by_cases hfits : p.Fits K first
  · rw [Pair.fst_collect_of_fits hfits]
    exact ⟨_, htake (p.baseSize K first + first.encodedLength)⟩
  · rw [Pair.fst_collect_of_not_fits hfits]
    exact ⟨_, htake (p.baseSize K first)⟩

theorem parked_pack (K : KeyScheme) (p : Pair) (o : Outbox) (first : Message) :
    (o.pack K p first).2.2.parked = o.parked := by
  rw [(o.pack_eq K p first).2]

/-- Packing moves the application's messages into the packet, from the front on. -/
theorem applicationPart_pack {K : KeyScheme} {p : Pair} {first : Message}
    (h : first.isApplication → p.Fits K first) (o : Outbox) :
    applicationPart ((o.pack K p first).1.elim [] Packet.allMessages ++
        (o.pack K p first).2.2.waiting) = applicationPart (first :: o.queue) := by
  obtain ⟨hpacket, hleft⟩ := o.pack_eq K p first
  rw [hpacket, hleft]
  exact Pair.applicationPart_collect h o.queue

end Outbox

namespace Outbox

/-- What the application has put in is small enough. What has found room is in a packet or still
waits to be packed. -/
structure Accounts (limit : Nat) (packets : List Packet) (offered : List Message) (o : Outbox) :
    Prop where
  small : ∀ m ∈ o.waiting ++ o.parked, m.isApplication → m.encodedLength ≤ limit
  entered : ∃ entered, offered = entered ++ o.parked ∧
    applicationPart (packets.flatMap Packet.allMessages ++ o.waiting) = applicationPart entered

namespace Accounts

variable {limit : Nat} {packets : List Packet} {offered : List Message} {o : Outbox}

theorem offer (h : o.Accounts limit packets offered) {m : Message}
    (hm : m.isApplication → m.encodedLength ≤ limit) :
    (o.offer m).Accounts limit packets (offered ++ [m]) := by
  obtain ⟨entered, hoffered, haccount⟩ := h.entered
  have hsmall : ∀ m' ∈ o.waiting ++ o.parked ++ [m],
      m'.isApplication → m'.encodedLength ≤ limit := by
    intro m' hmem
    rcases List.mem_append.1 hmem with hold | hnew
    · exact h.small m' hold
    · rwa [List.mem_singleton.1 hnew]
  rw [Outbox.offer]
  split_ifs with hroom
  · have hparked : o.parked = [] := by
      rw [hasRoom, Bool.and_eq_true] at hroom
      exact List.isEmpty_iff.1 hroom.1
    rw [hparked, List.append_nil] at hoffered hsmall
    refine ⟨?_, entered ++ [m], ?_, ?_⟩
    · simpa [waiting, hparked] using hsmall
    · simp [hparked, hoffered]
    · simp only [waiting, ← List.append_assoc, applicationPart_append] at haccount ⊢
      rw [haccount]
  · refine ⟨?_, entered, ?_, haccount⟩
    · simpa [waiting] using hsmall
    · simp [hoffered]

theorem refill (h : o.Accounts limit packets offered) :
    o.refill.Accounts limit packets offered := by
  obtain ⟨entered, hoffered, haccount⟩ := h.entered
  have hparked := List.take_append_drop o.room o.parked
  refine ⟨?_, entered ++ o.parked.take o.room, ?_, ?_⟩
  · have hsmall := h.small
    rw [← hparked] at hsmall
    simpa [waiting, Outbox.refill] using hsmall
  · simp [Outbox.refill, hoffered, hparked]
  · simp only [Outbox.refill, waiting, ← List.append_assoc, applicationPart_append] at haccount ⊢
    rw [haccount]

theorem withdraw (h : o.Accounts limit packets offered) (id : Bytes32) :
    (o.withdraw id).Accounts limit packets
      (offered.take (offered.length - o.parked.length) ++
        (offered.drop (offered.length - o.parked.length)).filter (·.queryId? ≠ some id)) := by
  obtain ⟨entered, rfl, haccount⟩ := h.entered
  have hlength : (entered ++ o.parked).length - o.parked.length = entered.length := by simp
  rw [hlength, List.take_left, List.drop_left]
  refine ⟨?_, entered, ?_, haccount⟩
  · intro m hmem
    rcases List.mem_append.1 hmem with hwaiting | hparked
    · exact h.small m (List.mem_append_left _ hwaiting)
    · exact h.small m (List.mem_append_right _ (List.mem_of_mem_filter hparked))
  · rfl

theorem pack (h : o.Accounts limit packets offered) {K : KeyScheme} {p : Pair} {first : Message}
    {o' : Outbox} (hfirst : o.first? = some (first, o'))
    (hfits : first.isApplication → p.Fits K first) :
    (o'.pack K p first).2.2.Accounts limit (packets ++ (o'.pack K p first).1.toList) offered := by
  obtain ⟨hwaiting, hparked⟩ := waiting_of_first? hfirst
  obtain ⟨entered, hoffered, haccount⟩ := h.entered
  have hpacked := applicationPart_pack hfits o'
  have hleft := o'.waiting_pack_suffix K p first
  refine ⟨?_, entered, ?_, ?_⟩
  · rw [o'.parked_pack K p first, hparked]
    intro m hmem
    refine h.small m ?_
    rw [hwaiting]
    rcases List.mem_append.1 hmem with hm | hm
    · exact List.mem_append_left _ (List.mem_cons_of_mem _ (hleft.mem hm))
    · exact List.mem_append_right _ hm
  · rw [o'.parked_pack K p first, hparked, hoffered]
  · have hnew : (o'.pack K p first).1.toList.flatMap Packet.allMessages =
        (o'.pack K p first).1.elim [] Packet.allMessages := by
      cases (o'.pack K p first).1 <;> simp
    rw [List.flatMap_append, hnew, List.append_assoc, applicationPart_append, hpacked, ← hwaiting,
      ← applicationPart_append, haccount]

end Accounts

end Outbox

namespace Turn

/-- One iteration: a packet is made from the front of the outbox and handed over. -/
def iterate (K : KeyScheme) (t : Turn) : Turn :=
  match t.conversation.outbox.first? with
  | none => t
  | some (first, o) => t.sendFrom K first o

def packet? (K : KeyScheme) (t : Turn) : Option Packet :=
  t.conversation.outbox.first?.bind fun (first, o) => (o.pack K t.conversation.pair first).1

/-- A turn of the sending side of an open conversation is a series of iterations. -/
theorem exists_sendAll_eq_iterate (K : KeyScheme) {t : Turn} (h : t.conversation.isClosed = false) :
    ∃ n, t.sendAll K = (iterate K)^[n] t := by
  fun_induction sendAll K t with
  | case1 t => exact ⟨0, rfl⟩
  | case2 t c _ hc =>
    have hopen : c.isClosed = false := h
    simp [hopen] at hc
  | case3 t => exact ⟨0, rfl⟩
  | case4 t c _ _ first o ho ih =>
    obtain ⟨_, _, _, _, _, hsent⟩ := t.conversation_sendFrom K first o
    obtain ⟨n, hn⟩ := ih (by rw [hsent]; exact h)
    have hfirst : t.conversation.outbox.first? = some (first, o) := ho
    have hstep : t.sendFrom K first o = t.iterate K := by rw [iterate, hfirst]
    exact ⟨n + 1, by rw [hn, hstep, Function.iterate_succ_apply]⟩

end Turn

/-- The sending side with an account of what went into it and what came out. -/
structure Sending where
  turn : Turn
  packets : List Packet
  /-- The messages put into the outbox, in order, without the queries taken back before there was
  room for them. -/
  offered : List Message

namespace Sending

inductive Step
  /-- A message is put in if it is not too large. -/
  | submit (m : Message)
  | confirm (key peerKey : Bytes32) (date : Int32)
  /-- Something happens to the pair. -/
  | change (event : Pair.Event) (routes : RouteTable)
  | refill
  | withdraw (id : Bytes32)
  | iterate

def offer (s : Sending) (m : Message) : Sending :=
  { s with turn := s.turn.offer m, offered := s.offered ++ [m] }

/-- How many messages have found room in the outbox. -/
def entered (s : Sending) : Nat := s.offered.length - s.turn.conversation.outbox.parked.length

def step (K : KeyScheme) (s : Sending) : Step → Sending
  | .submit m =>
    match s.turn.conversation.checkSize m with
    | .ok () => s.offer m
    | .error _ => s
  | .confirm key peerKey date => s.offer (.confirmChannel key peerKey date)
  | .change event routes =>
    { s with turn := s.turn.become (s.turn.conversation.pair.after K event) routes }
  | .refill => { s with turn := s.turn.refill }
  | .withdraw id =>
    let c := s.turn.conversation
    { s with
      turn := { s.turn with conversation := { c with outbox := c.outbox.withdraw id } }
      offered := s.offered.take s.entered ++
        (s.offered.drop s.entered).filter (·.queryId? ≠ some id) }
  | .iterate =>
    { s with turn := s.turn.iterate K, packets := s.packets ++ (s.turn.packet? K).toList }

def run (K : KeyScheme) (s : Sending) (steps : List Step) : Sending := steps.foldl (step K) s

def start (node : Nat) (config : Config) (own : LocalIdentity) (remote : Descriptor) (now : Int32)
    (supply : Supply) (routes : RouteTable) : Sending where
  turn := { conversation := .new node config (.new own remote config now supply), routes }
  packets := []
  offered := []

structure Sound (s : Sending) : Prop where
  mtu : s.turn.conversation.pair.mtu = s.turn.conversation.config.mtu
  accounts : s.turn.conversation.outbox.Accounts s.turn.conversation.maxMessageSize s.packets
    s.offered

end Sending

theorem Conversation.fits_of_le (K : KeyScheme) {c : Conversation} (h : c.pair.mtu = c.config.mtu)
    {m : Message} (hm : m.encodedLength ≤ c.maxMessageSize) : c.pair.Fits K m := by
  have hheader := c.pair.headerSize_le
  have hhead := c.pair.total_handshakeMessage_le K m
  have hpos : 4 ≤ m.encodedLength := Nat.le_add_right 4 _
  rw [Conversation.maxMessageSize, Config.maxMessageSize] at hm
  rw [Pair.Fits, Pair.baseSize, h]
  omega

theorem Conversation.le_of_checkSize {c : Conversation} {m : Message}
    (h : c.checkSize m = .ok ()) : m.encodedLength ≤ c.maxMessageSize := by
  rw [checkSize] at h
  split_ifs at h with hsize
  exact Nat.le_of_not_lt hsize

namespace Sending

variable {K : KeyScheme} {s : Sending}

theorem Sound.fits (h : s.Sound) {first : Message} {o : Outbox}
    (hfirst : s.turn.conversation.outbox.first? = some (first, o)) (happ : first.isApplication) :
    s.turn.conversation.pair.Fits K first := by
  have hmem : first ∈ s.turn.conversation.outbox.waiting := by
    rw [(Outbox.waiting_of_first? hfirst).1]
    exact List.mem_cons_self
  exact Conversation.fits_of_le K h.mtu (h.accounts.small first (List.mem_append_left _ hmem) happ)

theorem Sound.offer (h : s.Sound) {m : Message}
    (hm : m.isApplication → m.encodedLength ≤ s.turn.conversation.maxMessageSize) :
    (s.offer m).Sound := by
  have hc := s.turn.conversation_offer m
  constructor
  · simp only [Sending.offer, hc]
    exact h.mtu
  · simp only [Sending.offer, hc]
    exact h.accounts.offer hm

theorem Sound.iterate (h : s.Sound) : (s.step K .iterate).Sound := by
  cases hfirst : s.turn.conversation.outbox.first? with
  | none =>
    simp only [Sending.step, Turn.iterate, Turn.packet?, hfirst, Option.bind_none,
      Option.toList_none, List.append_nil]
    exact h
  | some front =>
    obtain ⟨first, o⟩ := front
    obtain ⟨_, _, _, _, _, hc⟩ := s.turn.conversation_sendFrom K first o
    have hturn : s.turn.iterate K = s.turn.sendFrom K first o := by rw [Turn.iterate, hfirst]
    have hpacket : s.turn.packet? K = (o.pack K s.turn.conversation.pair first).1 := by
      rw [Turn.packet?, hfirst]
      rfl
    have haccounts := h.accounts.pack hfirst (h.fits (K := K) hfirst)
    simp only [Sending.step, hturn, hpacket]
    constructor
    · simp only [hc]
      exact h.mtu
    · simp only [hc]
      exact haccounts

theorem Sound.change (h : s.Sound) (event : Pair.Event) (routes : RouteTable) :
    (s.step K (.change event routes)).Sound := by
  obtain ⟨inbox, sealing, hc⟩ :=
    s.turn.conversation_become (s.turn.conversation.pair.after K event) routes
  have hown := s.turn.conversation.pair.own_after K event
  have hmtu := s.turn.conversation.pair.mtu_after K event
  constructor
  · simp only [Sending.step, hc]
    exact hmtu.trans h.mtu
  · have haccounts := h.accounts
    rw [Conversation.maxMessageSize, ← hown] at haccounts
    simp only [Sending.step, hc]
    exact haccounts

theorem Sound.step (h : s.Sound) (step : Step) : (s.step K step).Sound := by
  cases step with
  | submit m =>
    rw [Sending.step]
    split
    · next hsize => exact h.offer fun _ => Conversation.le_of_checkSize hsize
    · exact h
  | confirm key peerKey date => exact h.offer (by rintro ⟨⟩)
  | change event routes => exact h.change event routes
  | refill =>
    have hc := s.turn.conversation_refill
    constructor
    · simp only [Sending.step, hc]
      exact h.mtu
    · simp only [Sending.step, hc]
      exact h.accounts.refill
  | withdraw id => exact ⟨h.mtu, h.accounts.withdraw id⟩
  | iterate => exact h.iterate

theorem sound_start (node : Nat) (config : Config) (own : LocalIdentity) (remote : Descriptor)
    (now : Int32) (supply : Supply) (routes : RouteTable) :
    (start node config own remote now supply routes).Sound where
  mtu := rfl
  accounts := ⟨by rintro _ ⟨⟩, [], rfl, rfl⟩

theorem Sound.run (h : s.Sound) (steps : List Step) : (s.run K steps).Sound := by
  induction steps generalizing s with
  | nil => exact h
  | cons step steps ih => exact ih (h.step step)

theorem exists_run_replicate_iterate (K : KeyScheme) (s : Sending) (n : Nat) :
    ∃ packets, s.run K (List.replicate n .iterate) =
      { s with turn := (Turn.iterate K)^[n] s.turn, packets := s.packets ++ packets } := by
  induction n generalizing s with
  | zero => exact ⟨[], by rw [List.append_nil]; rfl⟩
  | succ n ih =>
    obtain ⟨packets, hrun⟩ := ih (s.step K .iterate)
    refine ⟨(s.turn.packet? K).toList ++ packets, hrun.trans ?_⟩
    rw [← List.append_assoc, Function.iterate_succ_apply]
    rfl

/-- The account goes on over whole turns of the sending side. -/
theorem Sound.sendAll (h : s.Sound) (hopen : s.turn.conversation.isClosed = false) :
    ∃ packets, ({ s with turn := s.turn.sendAll K, packets := s.packets ++ packets } :
      Sending).Sound := by
  obtain ⟨n, hn⟩ := s.turn.exists_sendAll_eq_iterate K hopen
  obtain ⟨packets, hrun⟩ := s.exists_run_replicate_iterate K n
  exact ⟨packets, hn ▸ hrun ▸ h.run (List.replicate n .iterate)⟩

/-- What the application has put in and what has found room is in the packets built so far, or is
left over from the last one, or is in the queue, in this order; what is still to find room comes
after it. Every message of the application's that opens a packet has room in it. -/
theorem sent_in_order (K : KeyScheme) (node : Nat) (config : Config) (own : LocalIdentity)
    (remote : Descriptor) (now : Int32) (supply : Supply) (routes : RouteTable) (steps : List Step)
    {s : Sending} (hs : (start node config own remote now supply routes).run K steps = s) :
    (∃ entered, s.offered = entered ++ s.turn.conversation.outbox.parked ∧
      applicationPart (s.packets.flatMap Packet.allMessages) ++
          (applicationPart s.turn.conversation.outbox.pending.toList ++
            applicationPart s.turn.conversation.outbox.queue) = applicationPart entered) ∧
      ∀ first o, s.turn.conversation.outbox.first? = some (first, o) → first.isApplication →
        s.turn.conversation.pair.Fits K first := by
  have h : s.Sound := hs ▸ (sound_start node config own remote now supply routes).run steps
  obtain ⟨entered, hoffered, haccount⟩ := h.accounts.entered
  rw [Outbox.waiting, applicationPart_append, applicationPart_append] at haccount
  exact ⟨⟨entered, hoffered, haccount⟩, fun _ _ hfirst happ => h.fits hfirst happ⟩

/-- Data of the largest size that is taken with an MTU of 400 and no addresses. -/
def piece (b : UInt8) : Message := .custom (List.replicate 48 b)

/-- Four messages for a queue with room for three, of which the first has been packed and the
second did not fit beside it. -/
def busy : Sending :=
  (start 0 { mtu := 400, queueCapacity := 3 } Pair.blank.own Pair.blank.remote 0 .zeros {}).run
    .transparent
    [.submit (piece 1), .submit (piece 2), .confirm (.replicate 32 3) (.replicate 32 4) 0,
      .submit (piece 5), .iterate]

theorem sent_in_order_busy :
    (busy.turn.conversation.outbox.first? =
        some (piece 2, { busy.turn.conversation.outbox with pending := none })) ∧
      (∃ entered, busy.offered = entered ++ [piece 5] ∧
        applicationPart (busy.packets.flatMap Packet.allMessages) ++
            (applicationPart [piece 2] ++
              applicationPart [.confirmChannel (.replicate 32 3) (.replicate 32 4) 0]) =
          applicationPart entered) ∧
      busy.turn.conversation.pair.Fits .transparent (piece 2) := by
  have hrun : busy.turn.conversation.outbox =
      { capacity := 3
        pending := some (piece 2)
        queue := [.confirmChannel (.replicate 32 3) (.replicate 32 4) 0]
        parked := [piece 5] } := by
    decide +kernel
  have hfirst : busy.turn.conversation.outbox.first? =
      some (piece 2, { busy.turn.conversation.outbox with pending := none }) := by
    rw [hrun]
    rfl
  have horder := sent_in_order .transparent 0 { mtu := 400, queueCapacity := 3 } Pair.blank.own
    Pair.blank.remote 0 .zeros {}
    [.submit (piece 1), .submit (piece 2), .confirm (.replicate 32 3) (.replicate 32 4) 0,
      .submit (piece 5), .iterate] (s := busy) rfl
  refine ⟨hfirst, ?_, horder.2 _ _ hfirst rfl⟩
  have haccount := horder.1
  rwa [hrun] at haccount

end Sending

end Adnl
