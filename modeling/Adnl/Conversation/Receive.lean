import Adnl.Conversation.Basic
import Adnl.Pair.Handshake
import Adnl.Pair.Receive
import Adnl.Reassembly.Progress

/-!
The receiving side of a conversation. A message put together from parts joins the end of the
messages still to be handled. This comes to an end: a part that completes a message either closes a
transfer or is longer than the message.
-/
namespace Adnl.Turn

def setWork (t : Turn) (work : List Message) : Turn :=
  { t with conversation := { t.conversation with work } }

/-- The receiving side has broken down: nothing is tidied up. -/
def breakDown (t : Turn) : Turn :=
  { t with conversation := { t.conversation with input := [], work := [], isDeaf := true } }

/-- Takes in a part, and queues the message that it completes. -/
def handlePart (t : Turn) (now : Nat) (hash : Bytes32) (totalSize offset : Int32) (data : Bytes) :
    Turn :=
  let c := t.conversation
  let (outcome, assembler) := c.pair.assembler.accept now hash totalSize offset data
  let t := { t with conversation := { c with pair := { c.pair with assembler } } }
  match outcome with
  | .nothing => t
  | .message m => t.setWork (c.work ++ [m])
  | .outOfRange => t.breakDown

def handleAnswer (t : Turn) (id : Bytes32) (data : Bytes) : Turn :=
  let c := t.conversation
  match c.queries.answer id data with
  | (true, queries) =>
    { t with conversation := { c with queries } }.signal (.wake (.pursue id))
  | (false, _) => t

def handle (K : KeyScheme) (now : Moment) (t : Turn) (m : Message) : Turn :=
  let p := t.conversation.pair
  match m with
  | .createChannel key date =>
    match p.onCreateChannel K t.routes key date with
    | (.ok confirmation, p, routes) => ((t.become p routes).enqueue confirmation).2
    | (.error _, p, routes) => t.become p routes
  | .confirmChannel key peerKey date =>
    match p.onConfirmChannel K t.routes key peerKey date with
    | (_, p, routes) => t.become p routes
  | .custom data => t.signal (.heard data)
  | .nop => t
  | .reinit date => t.become (p.observeDate date now.date).2 t.routes
  | .query id data => t.signal (.asked id data)
  | .answer id data => t.handleAnswer id data
  | .part hash totalSize offset data => t.handlePart now.elapsed hash totalSize offset data

/-- Checks a packet; the messages of an accepted one are to be handled. -/
def takePacket (K : KeyScheme) (now : Moment) (t : Turn) (i : Incoming) : Turn :=
  match t.conversation.pair.checkPacket K i.packet i.source i.viaChannel now.date with
  | (.error _, p) => t.become p t.routes
  | (.ok (), p) => (t.become p t.routes).setWork i.packet.allMessages

/-- The receiving side ends: the channel is given up. -/
def finishReceiving (t : Turn) : Turn :=
  let t := t.close.become t.conversation.pair.dropChannel t.routes
  { t with conversation := { t.conversation with input := [], isDeaf := true } }.signal .stopped

/-- Where the receiving side stands: packets left, then messages and transfers left, then messages
left, then their size. -/
def pace (c : Conversation) : Nat × Nat × Nat × Nat :=
  (c.input.length, c.work.length + c.pair.assembler.transfers.length, c.work.length,
    Bytes.total (c.work.map Message.encodedLength))

section Termination

theorem assembler_install (K : KeyScheme) (p : Pair) (routes : RouteTable) (key : Bytes32)
    (date : Int32) (ready : Bool) :
    (p.install K routes key date ready).2.1.assembler = p.assembler := by
  have hr : (Pair.install.replace K p routes key date ready).2.1.assembler = p.assembler := by
    unfold Pair.install.replace
    split
    · rfl
    · dsimp only
      split <;> rfl
  unfold Pair.install
  split
  · split
    · dsimp only; split <;> rfl
    · split
      · rfl
      · exact hr
  · exact hr

theorem assembler_onCreateChannel (K : KeyScheme) (p : Pair) (routes : RouteTable) (key : Bytes32)
    (date : Int32) : (p.onCreateChannel K routes key date).2.1.assembler = p.assembler := by
  have h := assembler_install K p routes key date false
  unfold Pair.onCreateChannel
  split <;> next heq => simpa [heq] using h

theorem assembler_onConfirmChannel (K : KeyScheme) (p : Pair) (routes : RouteTable)
    (key peerKey : Bytes32) (date : Int32) :
    (p.onConfirmChannel K routes key peerKey date).2.1.assembler = p.assembler := by
  unfold Pair.onConfirmChannel
  split
  · exact assembler_install ..
  · rfl

theorem assembler_observeDate (p : Pair) (date now : Int32) :
    (p.observeDate date now).2.assembler = p.assembler := by
  unfold Pair.observeDate Pair.reinit
  split
  · rfl
  · split
    · rfl
    · split
      · dsimp only; split <;> rfl
      · rfl

theorem become_conversation (t : Turn) (p : Pair) (routes : RouteTable) :
    (t.become p routes).conversation.pair = p ∧
      (t.become p routes).conversation.input = t.conversation.input ∧
      (t.become p routes).conversation.work = t.conversation.work := by
  unfold become
  dsimp only
  split
  · exact ⟨rfl, rfl, rfl⟩
  · split <;> exact ⟨rfl, rfl, rfl⟩

/-- What the receiving side has before it: packets, messages, and transfers. -/
def agenda (c : Conversation) : List Incoming × List Message × Assembler :=
  (c.input, c.work, c.pair.assembler)

theorem agenda_become {t : Turn} {p : Pair} {routes : RouteTable}
    (h : p.assembler = t.conversation.pair.assembler) :
    agenda (t.become p routes).conversation = agenda t.conversation := by
  obtain ⟨h1, h2, h3⟩ := become_conversation t p routes
  simp only [agenda, h1, h2, h3, h]

theorem agenda_enqueue (t : Turn) (m : Message) :
    agenda (t.enqueue m).2.conversation = agenda t.conversation := by
  unfold enqueue
  split
  · rfl
  · unfold offer
    dsimp only
    split <;> rfl

/-- One pace is nearer to the end than another: the first number that differs is smaller. -/
def Nearer (a b : Nat × Nat × Nat × Nat) : Prop :=
  a.1 < b.1 ∨ a.1 = b.1 ∧ (a.2.1 < b.2.1 ∨ a.2.1 = b.2.1 ∧
    (a.2.2.1 < b.2.2.1 ∨ a.2.2.1 = b.2.2.1 ∧ a.2.2.2 < b.2.2.2))

theorem Nearer.lex {a b : Nat × Nat × Nat × Nat} (h : Nearer a b) :
    Prod.Lex (· < ·) (Prod.Lex (· < ·) (Prod.Lex (· < ·) (· < ·))) a b := by
  obtain ⟨a1, a2, a3, a4⟩ := a
  obtain ⟨b1, b2, b3, b4⟩ := b
  simp only [Nearer] at h
  rcases h with h | ⟨rfl, h | ⟨rfl, h | ⟨rfl, h⟩⟩⟩
  · exact .left _ _ h
  · exact .right _ (.left _ _ h)
  · exact .right _ (.right _ (.left _ _ h))
  · exact .right _ (.right _ (.right _ h))

theorem agenda_handle (K : KeyScheme) (now : Moment) (t : Turn) (m : Message) :
    agenda (t.handle K now m).conversation = agenda t.conversation ∨
      ∃ hash totalSize offset data, m = .part hash totalSize offset data := by
  cases m with
  | createChannel key date =>
    left
    have ha := assembler_onCreateChannel K t.conversation.pair t.routes key date
    unfold handle
    dsimp only
    split <;> next heq =>
      rw [heq] at ha
      first
      | rw [agenda_enqueue, agenda_become ha]
      | exact agenda_become ha
  | confirmChannel key peerKey date =>
    exact .inl (agenda_become (assembler_onConfirmChannel ..))
  | reinit date => exact .inl (agenda_become (assembler_observeDate ..))
  | answer id data =>
    left
    unfold handle handleAnswer
    dsimp only
    split <;> rfl
  | part hash totalSize offset data => exact .inr ⟨_, _, _, _, rfl⟩
  | _ => exact .inl rfl

theorem pace_eq_of_agenda_eq {c c' : Conversation} (h : agenda c' = agenda c) :
    pace c' = pace c := by
  simp only [agenda, Prod.mk.injEq] at h
  simp only [pace, h.1, h.2.1, h.2.2]

/-- Handling a message brings the end nearer. -/
theorem nearer_handle (K : KeyScheme) (now : Moment) (t : Turn) (m : Message) (rest : List Message)
    (h : t.conversation.work = m :: rest) :
    Nearer (pace ((t.setWork rest).handle K now m).conversation) (pace t.conversation) := by
  rcases agenda_handle K now (t.setWork rest) m with he | ⟨hash, totalSize, offset, data, rfl⟩
  · rw [pace_eq_of_agenda_eq he]
    simp only [Nearer, pace, setWork, h, List.length_cons, true_and]
    omega
  · simp only [handle, handlePart]
    generalize ha : (t.setWork rest).conversation.pair.assembler.accept now.elapsed hash totalSize
      offset data = r
    have hlen := Assembler.length_accept_le (t.setWork rest).conversation.pair.assembler now.elapsed
      hash totalSize offset data
    have hmsg := @Assembler.accept_message (t.setWork rest).conversation.pair.assembler now.elapsed
      hash totalSize offset data
    rw [ha] at hlen hmsg
    obtain ⟨outcome, a⟩ := r
    simp only [setWork] at hlen hmsg ⊢
    cases outcome with
    | nothing =>
      simp only [Nearer, pace, h, List.length_cons, true_and] at hlen ⊢
      omega
    | message m' =>
      have hsize : data.length < (Message.part hash totalSize offset data).encodedLength := by
        simp only [Message.encodedLength, Message.fieldsLength, Tl.bytesLength]
        omega
      simp only [Nearer, pace, h, List.length_cons, List.length_append, List.length_nil,
        List.map_append, List.map_cons, List.map_nil, Bytes.total_append, Bytes.total, true_and] at hmsg ⊢
      have := hmsg rfl
      omega
    | outOfRange =>
      simp only [Nearer, breakDown, pace, h, List.length_cons, List.length_nil, List.map_nil,
        Bytes.total] at hlen ⊢
      omega

theorem nearer_takePacket (K : KeyScheme) (now : Moment) (t : Turn) (i : Incoming)
    (rest : List Incoming) (h : t.conversation.input = i :: rest) :
    Nearer
      (pace (({ t with conversation := { t.conversation with input := rest } } : Turn).takePacket
        K now i).conversation)
      (pace t.conversation) := by
  have hi : (({ t with conversation := { t.conversation with input := rest } } : Turn).takePacket
      K now i).conversation.input = rest := by
    unfold takePacket
    split
    · exact (become_conversation _ _ _).2.1
    · exact (become_conversation _ _ _).2.1
  simp only [Nearer, pace, hi, h, List.length_cons]
  omega

end Termination

/--
Handles what there is to handle: the messages of the current packet, then the next packet. It waits
when a confirmation finds no room in the outbox, and ends when the conversation is closed. A closing
races with the next packet and is taken first here; `receiveLate` takes the packet.
-/
def receiveAll (K : KeyScheme) (now : Moment) (t : Turn) : Turn :=
  if t.conversation.isDeaf || t.conversation.outbox.receiverWaits then t
  else
    match _h : t.conversation.work with
    | m :: rest => receiveAll K now ((t.setWork rest).handle K now m)
    | [] =>
      if t.conversation.isClosed then t.finishReceiving
      else
        match _h' : t.conversation.input with
        | [] => t
        | i :: rest =>
          receiveAll K now
            (({ t with conversation := { t.conversation with input := rest } } : Turn).takePacket
              K now i)
termination_by pace t.conversation
decreasing_by
  · exact (nearer_handle K now t m rest _h).lex
  · exact (nearer_takePacket K now t i rest _h').lex

/-- A turn of the receiving side. The channel's side may go on when the input was full. -/
def receive (K : KeyScheme) (now : Moment) (t : Turn) : Turn :=
  let full := t.conversation.config.queueCapacity ≤ t.conversation.input.length
  let t := t.receiveAll K now
  if full then t.signal (.wake .unlock) else t

end Adnl.Turn
