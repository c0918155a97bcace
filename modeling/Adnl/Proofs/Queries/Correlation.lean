import Adnl.Proofs.Queries.Table
import Adnl.Proofs.Readiness.Evidence

/-! # Answers find their queries

A conversation goes through any course of events, in which queries are asked, time out or are given
up, answers come in any order, and the conversation is closed at some time. Only the calls and the
answers that are handled touch the table of queries, each in one of the ways in which it changes.
-/
namespace Adnl

namespace Turn

def abandon (t : Turn) (id : Bytes32) : Turn :=
  { t with conversation := { t.conversation with
    queries := t.conversation.queries.abandon id
    outbox := t.conversation.outbox.withdraw id } }

def asks (t : Turn) : Happening → List Bytes32
  | .ask .. => [t.conversation.pair.supply.drawFill.1]
  | _ => []

/-- The answer that is handled, if its call waits. -/
def answers (t : Turn) : Happening → List (Bytes32 × Bytes)
  | .receive _ =>
    match t.handles? with
    | some (.answer id data) => if t.conversation.queries.waits id then [(id, data)] else []
    | _ => []
  | _ => []

variable (K : KeyScheme) (t : Turn)

theorem queries_become (p : Pair) (routes : RouteTable) :
    (t.become p routes).conversation.queries = t.conversation.queries := by
  obtain ⟨inbox, sealing, hc⟩ := t.conversation_become p routes
  rw [hc]

theorem queries_enqueue (m : Message) :
    (t.enqueue m).2.conversation.queries = t.conversation.queries := by
  rw [enqueue]
  split_ifs
  · rfl
  · rw [conversation_offer]

theorem queries_close : t.close.conversation.queries = t.conversation.queries := by
  rw [close]
  split_ifs <;> rfl

theorem queries_takePacket (now : Moment) (i : Incoming) :
    (t.takePacket K now i).conversation.queries = t.conversation.queries := by
  rw [takePacket]
  split
  · exact queries_become ..
  · exact queries_become ..

theorem queries_finishReceiving :
    t.finishReceiving.conversation.queries = t.conversation.queries :=
  (t.close.queries_become _ _).trans t.queries_close

theorem queries_unlockNext : t.unlockNext.conversation.queries = t.conversation.queries := by
  have hopen (c : Channel) (d : Datagram) (rest : List Datagram) :
      ((t.setQueue rest).unlockDatagram c d).2.conversation.queries = t.conversation.queries := by
    obtain ⟨pair, input, signals, hturn, -⟩ := (t.setQueue rest).snd_unlockDatagram c d
    rw [hturn]
    rfl
  rw [unlockNext]
  by_cases hclosed : t.conversation.isClosed
  · rw [if_pos hclosed]
    rfl
  rw [if_neg hclosed]
  split
  · next c d rest _ _ =>
    by_cases hfull : t.conversation.config.queueCapacity ≤ t.conversation.input.length
    · rw [if_pos hfull]
    · rw [if_neg hfull]
      have hqueries := hopen c d rest
      split <;> next heq => rwa [heq] at hqueries
  · rfl

theorem queries_sendAll : (t.sendAll K).conversation.queries = t.conversation.queries := by
  fun_induction sendAll K t with
  | case1 t => rfl
  | case2 t =>
    rw [finishSending]
    split_ifs <;> rfl
  | case3 t => rfl
  | case4 t _ _ _ first o _ ih =>
    obtain ⟨_, _, _, _, _, hc⟩ := t.conversation_sendFrom K first o
    rw [ih, hc]

theorem queries_send : (t.send K).conversation.queries = t.conversation.queries := by
  rw [send, conversation_refill]
  exact t.queries_sendAll K

theorem queries_openLate (c : Channel) (d : Datagram) :
    (t.openLate c d).1.conversation.queries = t.conversation.queries := by
  rw [openLate]
  split
  · rfl
  · dsimp only
    split
    · rfl
    · simp only [pass]
      split_ifs <;> rfl

theorem queries_handleAnswer (id : Bytes32) (data : Bytes) :
    (t.handleAnswer id data).conversation.queries = (t.conversation.queries.answer id data).2 := by
  rw [handleAnswer, QueryTable.answer]
  split_ifs <;> rfl

theorem handle_answer_of_notMem (now : Moment) {id : Bytes32} (data : Bytes)
    (h : id ∉ t.conversation.queries.pending) : t.handle K now (.answer id data) = t := by
  simp only [handle, handleAnswer, QueryTable.answer, h, if_false]

theorem queries_handle (now : Moment) (m : Message) :
    (∃ id data, m = .answer id data ∧ (t.handle K now m).conversation.queries =
      (t.conversation.queries.answer id data).2) ∨
      (∀ id data, m ≠ .answer id data) ∧
        (t.handle K now m).conversation.queries = t.conversation.queries := by
  cases m with
  | answer id data => exact .inl ⟨id, data, rfl, t.queries_handleAnswer id data⟩
  | createChannel key date =>
    refine .inr ⟨by simp, ?_⟩
    simp only [handle]
    split
    · rw [queries_enqueue, queries_become]
    · exact queries_become ..
  | confirmChannel key peerKey date => exact .inr ⟨by simp, queries_become ..⟩
  | reinit date => exact .inr ⟨by simp, queries_become ..⟩
  | part hash totalSize offset data =>
    refine .inr ⟨by simp, ?_⟩
    simp only [handle, handlePart]
    split <;> rfl
  | custom data => exact .inr ⟨by simp, rfl⟩
  | nop => exact .inr ⟨by simp, rfl⟩
  | query id data => exact .inr ⟨by simp, rfl⟩

theorem change_receiveNext (now : Moment) :
    t.conversation.queries.Change [] (t.answers (.receive now))
      (t.receiveNext K now).conversation.queries := by
  rw [receiveNext, answers, handles?]
  split_ifs with hguard hend
  · exact .same
  · rw [queries_finishReceiving, hend.1]
    exact .same
  · rw [receiveOne, if_neg hguard]
    cases hwork : t.conversation.work with
    | cons m rest =>
      obtain ⟨id, data, rfl, hqueries⟩ | ⟨hne, hqueries⟩ := (t.setWork rest).queries_handle K now m
      · simp only [List.head?_cons, hqueries]
        exact .answered id data
      · rw [hqueries, List.head?_cons]
        split
        · next heq => exact absurd (Option.some.inj heq) (hne _ _)
        · exact .same
    | nil =>
      cases hinput : t.conversation.input with
      | nil => exact .same
      | cons i rest =>
        simp only [queries_takePacket]
        exact .same

theorem change_await (now : Nat) {id : Bytes32}
    (hresult : ∀ c, t.conversation.queries.get? id = some c → c.result = none) :
    t.conversation.queries.Change [] [] (t.await now id).conversation.queries := by
  rw [await]
  split
  · exact .same
  · next c hc =>
    split
    · exact .same
    · next result houtcome =>
      obtain ⟨hmem, rfl⟩ := QueryTable.mem_of_get? hc
      refine .ended hmem (hresult c hc) fun data hdata => ?_
      exact Call.reply_of_outcome? (hdata ▸ houtcome)

theorem queries_unless_closed (m : Message) :
    (if t.conversation.isClosed then t else t.offer m).conversation.queries =
      t.conversation.queries := by
  split_ifs
  · rfl
  · rw [conversation_offer]

theorem change_beginCall (now : Nat) {c : Call} (hc : t.conversation.queries.get? c.id = some c)
    (hdeadline : c.deadline = none) (hresult : c.result = none) :
    ∃ mid, t.conversation.queries.Change [] [] mid ∧
      mid.Change [] [] (t.beginCall now c).conversation.queries := by
  have hmem := (QueryTable.mem_of_get? hc).1
  rw [beginCall]
  split
  · exact ⟨_, .same, .ended hmem hresult (by rintro _ ⟨⟩)⟩
  · refine ⟨t.conversation.queries.start c.id now, .begun hmem hdeadline hresult, ?_⟩
    have hawait (s : Turn) (hs : s.conversation.queries = t.conversation.queries.start c.id now) :
        (t.conversation.queries.start c.id now).Change [] []
          (s.await now c.id).conversation.queries := by
      rw [← hs]
      refine s.change_await now fun c' hc' => ?_
      exact (QueryTable.result_of_get?_start hc (hs ▸ hc')).trans hresult
    exact hawait _ (queries_unless_closed _ _)

theorem change_pursue (now : Nat) (id : Bytes32) :
    ∃ mid, t.conversation.queries.Change [] [] mid ∧
      mid.Change [] [] (t.pursue now id).conversation.queries := by
  rw [pursue]
  split
  · exact ⟨_, .same, .same⟩
  · next c hc =>
    obtain ⟨hmem, rfl⟩ := QueryTable.mem_of_get? hc
    split_ifs with hresult hdeadline
    · exact ⟨_, .same, .same⟩
    · refine ⟨_, .same, t.change_await now fun c' hc' => ?_⟩
      rw [← Option.some.inj (hc.symm.trans hc')]
      simpa using hresult
    · exact t.change_beginCall now hc (by simpa using hdeadline) (by simpa using hresult)

/-- With everything that happens the table changes once, or a call begins and ends. -/
theorem change_act (h : Happening) :
    ∃ mid, t.conversation.queries.Change (t.asks h) (t.answers h) mid ∧
      mid.Change [] [] (t.act K h).conversation.queries := by
  have hsame {t' : Turn} (hqueries : t'.conversation.queries = t.conversation.queries) :
      ∃ mid, t.conversation.queries.Change [] [] mid ∧ mid.Change [] [] t'.conversation.queries :=
    ⟨_, .same, hqueries ▸ .same⟩
  cases h with
  | receive now => exact ⟨_, t.change_receiveNext K now, .same⟩
  | pursue now id => exact t.change_pursue now id
  | ask query timeout =>
    let call : Call := { id := t.conversation.pair.supply.drawFill.1, query, timeout }
    exact ⟨_, .asked (c := call) rfl rfl rfl, .same⟩
  | arrive d =>
    refine hsame ?_
    simp only [act, arrive]
    split <;> rfl
  | unlock => exact hsame t.queries_unlockNext
  | deliver packet source =>
    refine hsame ?_
    simp only [act, Conversation.deliver]
    split_ifs <;> rfl
  | send => exact hsame (t.queries_send K)
  | transmit => exact hsame rfl
  | lock =>
    refine hsame ?_
    simp only [act, lock]
    split <;> rfl
  | enqueue m => exact hsame (t.queries_enqueue m)
  | close => exact hsame t.queries_close
  | list l => exact hsame (t.queries_become _ _)
  | register id kind =>
    refine hsame ?_
    simp only [act]
    split <;> rfl
  | release id ticket => exact hsame rfl

end Turn

namespace Exposed

inductive Occurrence
  | move (m : Move)
  /-- Whoever asked a query stops waiting for the answer. -/
  | abandon (id : Bytes32)

section
variable (K : KeyScheme)

def occur (e : Exposed) : Occurrence → Exposed
  | .move m => e.step K m
  | .abandon id => e.become (e.turn.abandon id)

def course (e : Exposed) (os : List Occurrence) : Exposed := os.foldl (occur K) e

def record {α : Type} (note : Exposed → Occurrence → List α) : Exposed → List Occurrence → List α
  | _, [] => []
  | e, o :: os => note e o ++ record note (e.occur K o) os

def queries (e : Exposed) : QueryTable := e.turn.conversation.queries

def asks (e : Exposed) : Occurrence → List Bytes32
  | .move (.happen h) => e.turn.asks h
  | _ => []

def answers (e : Exposed) : Occurrence → List (Bytes32 × Bytes)
  | .move (.happen h) => e.turn.answers h
  | _ => []

def returns (e : Exposed) (o : Occurrence) : List (Bytes32 × Except Error Bytes) :=
  e.queries.returns (e.occur K o).queries

end

variable {K : KeyScheme} {e : Exposed}

theorem course_snoc (os : List Occurrence) (o : Occurrence) :
    e.course K (os ++ [o]) = (e.course K os).occur K o :=
  List.foldl_append

theorem record_snoc {α : Type} (note : Exposed → Occurrence → List α) (os : List Occurrence)
    (o : Occurrence) :
    record K note e (os ++ [o]) = record K note e os ++ note (e.course K os) o := by
  induction os generalizing e with
  | nil => simp [record, course]
  | cons o' os ih =>
    rw [List.cons_append, record, ih, record, List.append_assoc]
    rfl

theorem change_occur (e : Exposed) (o : Occurrence) :
    ∃ mid, e.queries.Change (e.asks o) (e.answers o) mid ∧
      mid.Change [] [] (e.occur K o).queries := by
  cases o with
  | abandon id => exact ⟨_, .abandoned id, .same⟩
  | move m =>
    cases m with
    | happen h => exact e.turn.change_act K h
    | late index d =>
      refine ⟨_, .same, ?_⟩
      have hqueries : (e.occur K (.move (.late index d))).queries = e.queries := by
        simp only [occur, step, queries]
        split
        · exact Turn.queries_openLate _ _ _
        · rfl
      exact hqueries ▸ .same

/-- What holds of the queries after some occurrences. -/
structure Correlated (K : KeyScheme) (e : Exposed) (os : List Occurrence) : Prop where
  matched : (e.course K os).queries.Matched (record K asks e os) (record K answers e os)
  returned : (e.course K os).queries.Returned (record K asks e os) (record K answers e os)
    (record K (returns K) e os)

theorem Correlated.snoc {os : List Occurrence} {o : Occurrence} (h : Correlated K e os)
    (hdistinct : (record K asks e (os ++ [o])).Nodup) : Correlated K e (os ++ [o]) := by
  obtain ⟨mid, hmid, hlast⟩ := (e.course K os).change_occur (K := K) o
  rw [record_snoc] at hdistinct
  have hmatched := (h.matched.change hmid hdistinct).change hlast (by rwa [List.append_nil])
  rw [List.append_nil, List.append_nil] at hmatched
  constructor
  · rw [course_snoc, record_snoc, record_snoc]
    exact hmatched
  · rw [course_snoc, record_snoc, record_snoc, record_snoc]
    exact h.returned.append h.matched hmatched hdistinct (hmid.continues.trans hlast.continues)
      (List.prefix_append _ _)

theorem correlated_course (hnone : e.queries = {}) {os : List Occurrence}
    (hdistinct : (record K asks e os).Nodup) : Correlated K e os := by
  induction os using List.reverseRecOn with
  | nil =>
    have hempty : (e.course K []).queries = {} := hnone
    constructor
    · rw [hempty]
      exact ⟨.nil, .nil, by simp, by simp [record], by simp, by simp⟩
    · rw [hempty]
      exact ⟨.nil, by simp [record], by simp, by simp [record]⟩
  | append_singleton os o ih =>
    refine (ih ?_).snoc hdistinct
    rw [record_snoc] at hdistinct
    exact hdistinct.of_append_left

/-- In every course of a conversation whose queries have different ids, each call returns at most
once, and an answer only if that is the first one for its id that was handled while the call waited.
Answers are expected for exactly the calls that wait and have none; another answer changes
nothing. -/
theorem answers_correlate (K : KeyScheme) (node : Nat) (config : Config) (own : LocalIdentity)
    (remote : Descriptor) (date : Int32) (supply : Supply) (routes : RouteTable) {e : Exposed}
    (he : start node config own remote date supply routes = e) (os : List Occurrence)
    (hdistinct : (record K asks e os).Nodup) :
    ((record K (returns K) e os).map Prod.fst).Nodup ∧
      (∀ r ∈ record K (returns K) e os, r.1 ∈ record K asks e os) ∧
      (∀ id data, (id, .ok data) ∈ record K (returns K) e os →
        (record K answers e os).lookup id = some data) ∧
      (e.course K os).queries.pending.Nodup ∧
      (∀ id, id ∈ (e.course K os).queries.pending ↔
        (e.course K os).queries.waits id ∧ (record K answers e os).lookup id = none) ∧
      ∀ now id data, ((e.course K os).queries.waits id →
          (record K answers e os).lookup id ≠ none) →
        (e.course K os).turn.handle K now (.answer id data) = (e.course K os).turn := by
  obtain ⟨hmatched, hreturned⟩ :=
    correlated_course (K := K) (e := e) (by rw [← he]; rfl) hdistinct
  refine ⟨hreturned.nodup, hreturned.asked, hreturned.answered, hmatched.pending_nodup,
    hmatched.mem_pending_iff, fun now id data hidle => ?_⟩
  refine Turn.handle_answer_of_notMem K _ now data fun hpending => ?_
  obtain ⟨hwaits, hnone⟩ := (hmatched.mem_pending_iff id).1 hpending
  exact hidle hwaits hnone

/-- An end that draws different ids asks two queries. The other end answers the second one twice and
one that nobody has asked; the first query times out. -/
def exchange : Exposed × List Occurrence :=
  let caller := Contact.caller
  let supply := { (caller .left).supply with fill := fun k => .replicate 32 k.toUInt8 }
  let peer : Pair := .new (caller .right).own
    ⟨(caller .left).own.key Contact.xorScheme, {}⟩ {} 100 (caller .right).supply
  let answers : List Message := [.answer (.replicate 32 1) [7], .answer (.replicate 32 1) [8],
    .answer (.replicate 32 9) [9]]
  let happenings : List Turn.Happening := [.ask [1] 50, .ask [2] 50,
    .pursue 0 (.replicate 32 0), .pursue 0 (.replicate 32 1),
    .deliver (peer.build Contact.xorScheme answers).1 ⟨.v4 0, 0⟩,
    .receive ⟨10, 100⟩, .receive ⟨10, 100⟩, .receive ⟨10, 100⟩, .receive ⟨10, 100⟩,
    .pursue 20 (.replicate 32 1), .pursue 60 (.replicate 32 0)]
  (start 0 {} (caller .left).own ⟨(caller .right).own.key Contact.xorScheme, {}⟩ 100 supply {},
    happenings.map fun h => .move (.happen h))

/-- The second call returns the answer that came first, and nothing is expected any more. -/
theorem answers_correlate_exchange :
    (record Contact.xorScheme asks exchange.1 exchange.2).Nodup ∧
      (.replicate 32 1, .ok [7]) ∈
        record Contact.xorScheme (returns Contact.xorScheme) exchange.1 exchange.2 ∧
      (record Contact.xorScheme answers exchange.1 exchange.2).lookup (.replicate 32 1) =
        some [7] ∧
      ((exchange.1.course Contact.xorScheme exchange.2).turn.handle Contact.xorScheme ⟨70, 100⟩
        (.answer (.replicate 32 0) [6])) =
        (exchange.1.course Contact.xorScheme exchange.2).turn := by
  obtain ⟨hdistinct, hreturned, hidle⟩ :
      (record Contact.xorScheme asks exchange.1 exchange.2).Nodup ∧
      (.replicate 32 1, .ok [7]) ∈
        record Contact.xorScheme (returns Contact.xorScheme) exchange.1 exchange.2 ∧
      (exchange.1.course Contact.xorScheme exchange.2).queries.waits (.replicate 32 0) =
        false := by decide +kernel
  obtain ⟨-, -, hok, -, -, hunchanged⟩ := answers_correlate Contact.xorScheme 0 {}
    (Contact.caller .left).own ⟨(Contact.caller .right).own.key Contact.xorScheme, {}⟩ 100 _ {}
    (e := exchange.1) rfl exchange.2 hdistinct
  refine ⟨hdistinct, hreturned, hok _ _ hreturned, hunchanged _ _ _ fun hwaits => ?_⟩
  rw [hidle] at hwaits
  cases hwaits

end Exposed

end Adnl
