import Adnl.Conversation.Run
import Adnl.Crypto.Curve25519
import Adnl.Proofs.Conversation.Frame
import Adnl.Proofs.Pair.Check
import Adnl.Proofs.Reassembly.Assembly

/-! # The messages to be handled run out

A message put together from parts is handled in its turn, and may be a part itself. Each iteration
still uses something up. A message is worth its own size and the size of the largest message that
could come out of a transfer, and an open transfer is worth as much as that: then a part that opens
a transfer pays for it with the message that it was, and a message that comes out is paid for by its
transfer, or by the part that it was all of.
-/
namespace Adnl

namespace Transfer

theorem length_splice_le (buffer data : Bytes) (start : Nat) :
    (splice buffer start data).length ≤ max buffer.length (start + data.length) := by
  simp only [splice, List.length_append, List.length_take, List.length_drop]
  omega

theorem length_fill_le (t : Transfer) (start : Nat) (data : Bytes) :
    (t.fill start data).2.buffer.length ≤ max t.buffer.length (start + data.length) := by
  have hpieces : ∀ g ∈ t.pieces ⟨start, start + data.length⟩, start ≤ g.start ∧
      g.start < g.stop ∧ g.stop ≤ start + data.length := by
    intro g hg
    have hne := nonempty_of_mem_pieces hg
    simp only [pieces, List.mem_filter, List.mem_map] at hg
    obtain ⟨⟨gap, -, rfl⟩, -⟩ := hg
    simp only [Gap.meet] at hne ⊢
    omega
  change ((t.pieces ⟨start, start + data.length⟩).foldl
    (fun b g => splice b g.start (piece start data g)) t.buffer).length ≤ _
  generalize t.pieces ⟨start, start + data.length⟩ = pieces at hpieces
  generalize t.buffer = buffer
  induction pieces generalizing buffer with
  | nil => exact Nat.le_max_left _ _
  | cons g pieces ih =>
    obtain ⟨hlow, hne, hhigh⟩ := hpieces g List.mem_cons_self
    have hrest := ih (fun g' hg' => hpieces g' (List.mem_cons_of_mem _ hg'))
      (splice buffer g.start (piece start data g))
    have hhead := length_splice_le buffer (piece start data g) g.start
    rw [length_piece hlow hhigh, Gap.size] at hhead
    rw [List.foldl_cons]
    omega

end Transfer

namespace Assembler

variable {a : Assembler} {hash : Bytes32} {t : Transfer} {n : Nat}

/-- No message that comes out of a transfer is larger. -/
def roof (a : Assembler) : Nat := (a.transfers.map (·.2.buffer.length)).foldr max a.maxBytes

theorem roof_le_iff :
    a.roof ≤ n ↔ a.maxBytes ≤ n ∧ ∀ e ∈ a.transfers, e.2.buffer.length ≤ n := by
  rw [roof]
  induction a.transfers with
  | nil => simp
  | cons e l ih =>
    rw [List.map_cons, List.foldr_cons, max_le_iff, ih, List.forall_mem_cons]
    exact and_left_comm

theorem maxBytes_le_roof (a : Assembler) : a.maxBytes ≤ a.roof := (roof_le_iff.1 le_rfl).1

theorem length_le_roof {e : Bytes32 × Transfer} (h : e ∈ a.transfers) :
    e.2.buffer.length ≤ a.roof := (roof_le_iff.1 le_rfl).2 e h

theorem roof_sweep_le (a : Assembler) (now : Nat) : (a.sweep now).roof ≤ a.roof := by
  refine roof_le_iff.2 ⟨?_, fun _ he => length_le_roof (mem_sweep he)⟩
  rw [settings_sweep.2]
  exact a.maxBytes_le_roof

theorem roof_erase_le (a : Assembler) (hash : Bytes32) : (a.erase hash).roof ≤ a.roof :=
  roof_le_iff.2 ⟨a.maxBytes_le_roof, fun _ he => length_le_roof (mem_erase.1 he).1⟩

theorem roof_put_le (ha : a.roof ≤ n) (ht : t.buffer.length ≤ n) :
    (a.put hash t).roof ≤ n := by
  refine roof_le_iff.2 ⟨a.maxBytes_le_roof.trans ha, fun e he => ?_⟩
  obtain rfl | ⟨hold, -⟩ := mem_put.1 he
  · exact ht
  · exact (length_le_roof hold).trans ha

theorem Meets.length_le {now start : Nat} {data : Bytes} (h : a.Meets now hash start data t) :
    t.buffer.length ≤ a.roof ∧ (t.fill start data).2.buffer.length ≤ a.roof := by
  have hroof := a.maxBytes_le_roof
  have hfill := t.length_fill_le start data
  cases h with
  | stored hget hfits =>
    have hlength : t.buffer.length ≤ a.roof := length_le_roof (mem_sweep (mem_of_get? hget))
    exact ⟨hlength, by omega⟩
  | @opened total deadline _ hmax hfits =>
    have hlength : (Transfer.start total deadline).buffer.length = total := List.length_replicate
    exact ⟨by omega, by omega⟩

/-- A part raises no roof, and a message that comes out stays below it. -/
theorem roof_accept (a : Assembler) (now : Nat) (hash : Bytes32) (totalSize offset : Int32)
    (data : Bytes) :
    (a.accept now hash totalSize offset data).2.roof ≤ a.roof ∧
      ∀ m, (a.accept now hash totalSize offset data).1 = .message m → m.encodedLength ≤ a.roof := by
  have hsweep := a.roof_sweep_le now
  have herase := ((a.sweep now).roof_erase_le hash).trans hsweep
  have haccepts := a.accepts now hash totalSize offset data
  generalize a.accept now hash totalSize offset data = r at haccepts ⊢
  cases haccepts with
  | outside => exact ⟨le_rfl, nofun⟩
  | clashes => exact ⟨herase, nofun⟩
  | repeats hmeets => exact ⟨roof_put_le hsweep hmeets.length_le.1, nofun⟩
  | continues hmeets => exact ⟨roof_put_le hsweep hmeets.length_le.2, nofun⟩
  | completes hmeets =>
    refine ⟨herase, fun m hm => ?_⟩
    dsimp only at hm
    rw [length_of_finish hm]
    exact hmeets.length_le.2

/-- What a number of messages and the open transfers are worth. -/
def worth (a : Assembler) (n : Nat) : Nat := a.roof * (n + a.transfers.length)

theorem worth_le {a' : Assembler} {k : Nat} (hroof : a'.roof ≤ a.roof)
    (h : k + a'.transfers.length ≤ n + a.transfers.length) : a'.worth k ≤ a.worth n :=
  Nat.mul_le_mul hroof h

section
variable (a) (now : Nat) (hash : Bytes32) (totalSize offset : Int32) (data : Bytes)

theorem worth_accept_le {k : Nat} (h : k ≤ n) :
    (a.accept now hash totalSize offset data).2.worth k ≤ a.worth (n + 1) := by
  have hopened := a.length_accept_le now hash totalSize offset data
  exact worth_le (a.roof_accept now hash totalSize offset data).1 (by omega)

/-- A message that comes out is worth no more than its transfer was, or than the part that it was
all of. -/
theorem worth_accept_message_le {m : Message}
    (h : (a.accept now hash totalSize offset data).1 = .message m) :
    (a.accept now hash totalSize offset data).2.worth (n + 1) + m.encodedLength ≤
      a.worth (n + 1) + data.length := by
  obtain ⟨hroof, hbelow⟩ := a.roof_accept now hash totalSize offset data
  obtain hclosed | ⟨hkept, hsmaller⟩ := accept_message h
  · have hm := hbelow m h
    have hless : (a.accept now hash totalSize offset data).2.worth (n + 1) + a.roof ≤
        a.worth (n + 1) := by
      refine (Nat.add_le_add_right (Nat.mul_le_mul_right _ hroof) _).trans ?_
      rw [← Nat.mul_succ]
      exact Nat.mul_le_mul_left _ (by omega)
    omega
  · exact Nat.add_le_add (worth_le hroof (by omega)) hsmaller

end

end Assembler

/-- The messages still to be handled and the transfers. -/
def Conversation.pending (c : Conversation) : List Message × Assembler :=
  (c.work, c.pair.assembler)

/-- No more messages are handled than this, once nothing more comes in. -/
def Conversation.budget (c : Conversation) : Nat :=
  c.pair.assembler.worth c.work.length + Bytes.total (c.work.map Message.encodedLength)

namespace Turn

variable (K : KeyScheme) (now : Moment) (t : Turn)

theorem budget_eq_of_pending_eq {c c' : Conversation} (h : c'.pending = c.pending) :
    c'.budget = c.budget := by
  obtain ⟨hwork, hassembler⟩ := Prod.mk.inj h
  rw [Conversation.budget, hwork, hassembler, Conversation.budget]

theorem budget_handlePart_lt {hash : Bytes32} {totalSize offset : Int32} {data : Bytes}
    {rest : List Message} (h : t.conversation.work = .part hash totalSize offset data :: rest) :
    ((t.setWork rest).handlePart now.elapsed hash totalSize offset data).conversation.budget <
      t.conversation.budget := by
  have hsize : data.length < (Message.part hash totalSize offset data).encodedLength := by
    simp only [Message.encodedLength, Message.fieldsLength, Tl.bytesLength]
    omega
  have hpays {k : Nat} (hk : k ≤ rest.length) := t.conversation.pair.assembler.worth_accept_le
    now.elapsed hash totalSize offset data hk
  have hpaid := @Assembler.worth_accept_message_le t.conversation.pair.assembler rest.length
    now.elapsed hash totalSize offset data
  simp only [handlePart, setWork]
  generalize t.conversation.pair.assembler.accept now.elapsed hash totalSize offset data = r
    at hpays hpaid ⊢
  obtain ⟨outcome, a⟩ := r
  cases outcome with
  | nothing =>
    have hless : a.worth rest.length ≤ _ := hpays le_rfl
    simp only [Conversation.budget, h, List.length_cons, List.map_cons, Bytes.total]
    omega
  | outOfRange =>
    have hless : a.worth 0 ≤ _ := hpays (Nat.zero_le _)
    simp only [breakDown, Conversation.budget, h, List.length_cons, List.length_nil, List.map_cons,
      List.map_nil, Bytes.total]
    omega
  | message m =>
    have hless : a.worth (rest.length + 1) + m.encodedLength ≤ _ := hpaid rfl
    simp only [Conversation.budget, h, List.length_cons, List.length_append, List.length_nil,
      List.map_append, List.map_cons, List.map_nil, Bytes.total_append, Bytes.total, Nat.zero_add]
    omega

/-- Each iteration uses something up. -/
theorem budget_handle_lt {m : Message} {rest : List Message}
    (h : t.conversation.work = m :: rest) :
    ((t.setWork rest).handle K now m).conversation.budget < t.conversation.budget := by
  obtain hp | ⟨hash, totalSize, offset, data, rfl⟩ := agenda_handle K now (t.setWork rest) m
  · have hpending : ((t.setWork rest).handle K now m).conversation.pending =
        (t.setWork rest).conversation.pending := congrArg Prod.snd hp
    rw [budget_eq_of_pending_eq hpending]
    have hpos : 0 < m.encodedLength := by
      simp only [Message.encodedLength]
      omega
    have hless : t.conversation.pair.assembler.worth rest.length ≤
        t.conversation.pair.assembler.worth (rest.length + 1) :=
      Assembler.worth_le le_rfl (by omega)
    simp only [Conversation.budget, setWork, h, List.length_cons, List.map_cons, Bytes.total]
    omega
  · exact t.budget_handlePart_lt now h

/-- One iteration, at any time. Whatever has been done elsewhere since the one before, it has left
alone the messages still to be handled and the transfers. -/
inductive Iterates (t : Turn) : Turn → Prop
  | handles {s : Turn} {m : Message} {rest : List Message} (now : Moment)
    (hs : s.conversation.pending = t.conversation.pending)
    (hwork : s.conversation.work = m :: rest) : Iterates t ((s.setWork rest).handle K now m)

inductive Iterations : Turn → ℕ → Turn → Prop
  | none (t : Turn) : Iterations t 0 t
  | next {t s t' : Turn} {n : ℕ} (h : Iterates K t s) (hrest : Iterations s n t') :
    Iterations t (n + 1) t'

def handleNext : Turn :=
  match t.conversation.work with
  | [] => t
  | m :: rest => (t.setWork rest).handle K now m

variable {K t} {t' : Turn} {n : ℕ}

theorem Iterates.budget_lt (h : Iterates K t t') :
    t'.conversation.budget < t.conversation.budget := by
  obtain ⟨now, hs, hwork⟩ := h
  rw [← budget_eq_of_pending_eq hs]
  exact budget_handle_lt K now _ hwork

theorem Iterations.add_budget_le (h : Iterations K t n t') :
    n + t'.conversation.budget ≤ t.conversation.budget := by
  induction h with
  | none => exact (Nat.zero_add _).le
  | next hstep _ ih =>
    have hless := hstep.budget_lt
    omega

theorem iterates_handleNext (K : KeyScheme) (now : Moment) (h : t.conversation.work ≠ []) :
    Iterates K t (t.handleNext K now) := by
  obtain ⟨m, rest, hwork⟩ := List.exists_cons_of_ne_nil h
  rw [handleNext, hwork]
  exact .handles now rfl hwork

theorem iterations_handleNext (K : KeyScheme) (now : Moment)
    (h : ∀ i < n, ((handleNext K now)^[i] t).conversation.work ≠ []) :
    Iterations K t n ((handleNext K now)^[n] t) := by
  induction n generalizing t with
  | zero => exact .none t
  | succ n ih =>
    exact .next (iterates_handleNext K now (h 0 n.succ_pos))
      (ih fun i hi => h (i + 1) (Nat.succ_lt_succ hi))

theorem Iterations.exists_next (h : Iterations K t n t') (hwork : t'.conversation.work ≠ []) :
    ∃ s, Iterations K t (n + 1) s := by
  induction h with
  | none t => exact ⟨_, .next (iterates_handleNext K ⟨0, 0⟩ hwork) (.none _)⟩
  | next hstep _ ih =>
    obtain ⟨s, hs⟩ := ih hwork
    exact ⟨s, .next hstep hs⟩

theorem receiveAll_handleNext (K : KeyScheme) (now : Moment)
    (hguard : ¬ (t.conversation.isDeaf ∨ t.conversation.outbox.receiverWaits))
    (hwork : t.conversation.work ≠ []) :
    t.receiveAll K now = (t.handleNext K now).receiveAll K now := by
  obtain ⟨m, rest, hcons⟩ := List.exists_cons_of_ne_nil hwork
  rw [receiveAll, if_neg (by simpa using hguard)]
  split
  · next m' rest' hcons' => rw [handleNext, hcons']
  · next hnone => exact absurd hnone hwork

theorem receive_eq_handleNext (K : KeyScheme) (now : Moment) {m : Message}
    (hwork : t.conversation.work = [m])
    (hguard : ¬ (t.conversation.isDeaf ∨ t.conversation.outbox.receiverWaits))
    (hroom : t.conversation.input.length < t.conversation.config.queueCapacity)
    (hopen : (t.handleNext K now).conversation.isClosed = false)
    (hdone : (t.handleNext K now).conversation.work = [])
    (hempty : (t.handleNext K now).conversation.input = []) :
    t.receive K now = t.handleNext K now := by
  have hlast : (t.handleNext K now).receiveAll K now = t.handleNext K now := by
    rw [receiveAll]
    split_ifs with hstop hclosed
    · rfl
    · simp [hopen] at hclosed
    · split
      · next hcons => simp [hdone] at hcons
      · split
        · rfl
        · next hcons => simp [hempty] at hcons
  have hall := (receiveAll_handleNext K now hguard (by simp [hwork])).trans hlast
  simp only [receive, hall, if_neg (Nat.not_le.2 hroom)]

/-- A turn of the receiving side begins with iterations until no message is left, unless it has
broken down or has to wait. -/
theorem exists_iterations_receiveAll (K : KeyScheme) (now : Moment) (t : Turn) :
    ∃ n s, Iterations K t n s ∧ t.receiveAll K now = s.receiveAll K now ∧
      (s.conversation.work = [] ∨ s.conversation.isDeaf ∨
        s.conversation.outbox.receiverWaits) := by
  induction hb : t.conversation.budget using Nat.strong_induction_on generalizing t with
  | _ b ih =>
    by_cases hwork : t.conversation.work = []
    · exact ⟨0, t, .none t, rfl, .inl hwork⟩
    · by_cases hguard : t.conversation.isDeaf ∨ t.conversation.outbox.receiverWaits
      · exact ⟨0, t, .none t, rfl, .inr hguard⟩
      · have hstep := iterates_handleNext K now hwork
        obtain ⟨n, s, hrun, hsame, hend⟩ := ih _ (hb ▸ hstep.budget_lt) _ rfl
        exact ⟨n + 1, s, .next hstep hrun,
          (receiveAll_handleNext K now hguard hwork).trans hsame, hend⟩

/-- The loop comes to an end. In whatever state it starts and whatever the time is at each
iteration, there are no more iterations than the messages and the transfers are worth, the loop
stops only when no message is left, and there is no run without end. A turn of the receiving side
begins with such a run, as far as it finds room for its confirmations. -/
theorem work_runs_out (K : KeyScheme) (t : Turn) :
    (∀ n t', Iterations K t n t' → n ≤ t.conversation.budget ∧
        (t'.conversation.work = [] ∨ ∃ s, Iterations K t (n + 1) s)) ∧
      (∀ f : ℕ → Turn, f 0 = t → ¬ ∀ n, Iterates K (f n) (f (n + 1))) ∧
      ∀ now, ∃ n s, Iterations K t n s ∧ t.receiveAll K now = s.receiveAll K now ∧
        (s.conversation.work = [] ∨ s.conversation.isDeaf ∨
          s.conversation.outbox.receiverWaits) := by
  refine ⟨fun n t' h => ⟨?_, ?_⟩, fun f _ hforever => ?_,
    fun now => exists_iterations_receiveAll K now t⟩
  · exact (Nat.le_add_right _ _).trans h.add_budget_le
  · by_cases hwork : t'.conversation.work = []
    · exact .inl hwork
    · exact .inr (h.exists_next hwork)
  · exact not_strictAnti_of_wellFoundedLT (fun n => (f n).conversation.budget)
      (strictAnti_nat_of_succ_lt fun n => (hforever n).budget_lt)

end Turn

def Message.parcel (m : Message) : Message :=
  .part (sha256 m.encode) (Int32.ofNat m.encode.length) 0 m.encode

def Message.halves (m : Message) : List Message :=
  let data := m.encode
  let half := data.length / 2
  let part (offset : Nat) (piece : Bytes) : Message :=
    .part (sha256 data) (Int32.ofNat data.length) (Int32.ofNat offset) piece
  [part 0 (data.take half), part half (data.drop half)]

/-- The two halves of a part that holds another message. -/
def Turn.nested : Turn where
  conversation := { Conversation.new 0 {} .blank with work := Message.nop.parcel.halves }
  routes := {}

/-- The first half waits, the second one gives the part, the part gives the message, and that is the
last one. -/
theorem Turn.work_runs_out_nested :
    ∃ s, Iterations ed25519 nested 4 s ∧ s.conversation.work = [] ∧
      4 ≤ nested.conversation.budget := by
  have hlast : (∀ i < 4, ((handleNext ed25519 ⟨0, 0⟩)^[i] nested).conversation.work ≠ []) ∧
      ((handleNext ed25519 ⟨0, 0⟩)^[4] nested).conversation.work = [] := by
    decide +kernel
  obtain ⟨hwork, hdone⟩ := hlast
  have hrun := iterations_handleNext ed25519 ⟨0, 0⟩ hwork
  exact ⟨_, hrun, hdone, ((work_runs_out ed25519 nested).1 4 _ hrun).1⟩

end Adnl
