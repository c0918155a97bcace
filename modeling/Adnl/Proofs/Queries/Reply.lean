import Adnl.Proofs.Conversation.Exhaustion
import Adnl.Proofs.Queries.Deeds

/-! # A query is answered once

While an inbound query is being answered, its holders respond, make copies and give them up in any
order, the wait ends, the conversation is closed. A record is kept of the responses to the query,
and of the answers that its looks put into the outbox.
-/
namespace Adnl

theorem Outbox.held_offer (o : Outbox) (m : Message) : (o.offer m).held = o.held ++ [m] := by
  rw [offer]
  split_ifs with hroom
  · have hparked : o.parked = [] := by
      simp only [hasRoom, Bool.and_eq_true, List.isEmpty_iff] at hroom
      exact hroom.1
    simp [held, waiting, hparked]
  · simp [held, waiting]

namespace Host

variable {K : KeyScheme} {k : Nat} {h : Host} {q : InboundQuery} {c : Conversation}

/-- What is to leave a conversation, or waits for room. -/
def outboxOf (h : Host) (i : Nat) : List Message :=
  match h.conversations[i]? with
  | none => []
  | some c => c.outbox.held

/-- A query as the handlers leave it, if they are still to see it. -/
def presented (h : Host) (now : Nat) (q : InboundQuery) : InboundQuery :=
  match q.stage, h.owner? q.conversation with
  | .fresh, some (_, n) => q.presentAll n.queryHandlers (now + h.config.handlerTimeout)
  | _, _ => q

/-- When the wait for the reply to a query is over, if it is looked at now. -/
def deadline (h : Host) (now : Nat) (q : InboundQuery) : Nat :=
  match q.stage with
  | .waiting deadline => deadline
  | _ => now + h.config.handlerTimeout

/-- The responses of handlers that are still to see a query. -/
def prompted (h : Host) (q : InboundQuery) : List (Bytes × Bool) :=
  match q.stage, h.owner? q.conversation with
  | .fresh, some (_, n) => q.slot.respondAll (q.prompt n.queryHandlers)
  | _, _ => []

theorem accounts_presented {responses : List (Bytes × Bool)} {answers : List Message}
    (ha : q.Accounts responses answers) (h : Host) (now : Nat) :
    (h.presented now q).Accounts (responses ++ h.prompted q) answers := by
  rw [presented, prompted]
  split
  · next c n hstage _ => exact ha.presentAll hstage _ _
  · rwa [List.append_nil]

theorem later_presented (h : Host) (now : Nat) (q : InboundQuery) :
    q.Later (h.presented now q) := by
  rw [presented]
  split
  · next c n hstage _ =>
    obtain ⟨_, hq⟩ := q.presentAll_eq n.queryHandlers (now + h.config.handlerTimeout)
    rw [hq]
    exact ⟨rfl, rfl, rfl, fun hdone => by simp [hstage] at hdone⟩
  · exact .refl q

theorem conversation_of_owner? {i : Nat} {n : Node} (howner : h.owner? i = some (c, n)) :
    h.conversations[i]? = some c := by
  simp only [owner?, Option.bind_eq_bind, Option.bind_eq_some_iff, Option.pure_def,
    Option.some.injEq, Prod.mk.injEq] at howner
  obtain ⟨_, hc, _, -, rfl, -⟩ := howner
  exact hc

theorem stage_presented {n : Node} (howner : h.owner? q.conversation = some (c, n))
    (hwaits : q.stage ≠ .done) (now : Nat) :
    (h.presented now q).stage = .waiting (h.deadline now q) := by
  cases hstage : q.stage with
  | fresh =>
    obtain ⟨_, hq⟩ := q.presentAll_eq n.queryHandlers (now + h.config.handlerTimeout)
    simp only [presented, deadline, hstage, howner, hq]
  | waiting deadline => simp only [presented, Host.deadline, hstage]
  | done => exact absurd hstage hwaits

theorem presentQuery_eq (hq : h.queries[k]? = some q) (hstage : q.stage = .fresh) (now : Nat) :
    ∃ nodes events, h.presentQuery now k q =
      { h with queries := h.queries.set k (h.presented now q), nodes, events } := by
  rw [presentQuery, presented, hstage]
  split
  · next hnone =>
    refine ⟨h.nodes, h.events, ?_⟩
    obtain ⟨hk, hget⟩ := List.getElem?_eq_some_iff.1 hq
    simp only [hnone]
    rw [← hget, List.set_getElem_self hk]
  · next c n howner =>
    simp only [howner]
    exact ⟨_, _, rfl⟩

theorem answerQuery_eq (hq : h.queries[k]? = some q) (now : Nat) : ∃ nodes events,
    h.answerQuery now k = concludeQuery
      { h with queries := h.queries.set k (h.presented now q), nodes, events } now k
      (h.presented now q) := by
  obtain ⟨hk, hget⟩ := List.getElem?_eq_some_iff.1 hq
  by_cases hstage : q.stage = .fresh
  · obtain ⟨nodes, events, hpresent⟩ := presentQuery_eq hq hstage now
    refine ⟨nodes, events, ?_⟩
    simp only [answerQuery, hq, hstage, if_true, hpresent, List.getElem?_set_self hk]
  · refine ⟨h.nodes, h.events, ?_⟩
    have hpresented : h.presented now q = q := by
      rw [presented]
      split
      · next hfresh _ => exact absurd hfresh hstage
      · rfl
    have hself : h.queries.set k q = h.queries := by
      rw [← hget]
      exact List.set_getElem_self hk
    simp only [answerQuery, hq, hstage, if_false, hpresented, hself]

theorem turn_enqueue_eq {i : Nat} (hc : h.conversations[i]? = some c) (hopen : c.isClosed = false)
    (m : Message) : ∃ effects, h.turn i (fun t => (t.enqueue m).2) =
      { h with
        conversations := h.conversations.set i { c with outbox := c.outbox.offer m }
        effects } := by
  let t : Turn := { conversation := c, routes := h.routes }
  have henqueue : (t.enqueue m).2 = t.offer m := by simp [t, Turn.enqueue, hopen]
  obtain ⟨tasks, hoffer⟩ := t.offer_eq m
  exact h.turn_eq hc (fun t => (t.enqueue m).2) (henqueue.trans hoffer)

/-- What the query becomes, and what the conversation has to send. -/
theorem concludeQuery_spec (hk : k < h.queries.length)
    (hc : h.conversations[q.conversation]? = some c) (now : Nat) :
    (h.concludeQuery now k q).queries[k]? =
        some (q.conclude c.isClosed now c.maxMessageSize).2 ∧
      (h.concludeQuery now k q).outboxOf q.conversation = c.outbox.held ++
        (q.conclude c.isClosed now c.maxMessageSize).1.toList := by
  obtain ⟨⟨slot, stage, hq'⟩, hclosed⟩ := q.conclude_frame c.isClosed now c.maxMessageSize
  simp only [concludeQuery, hc]
  generalize q.conclude c.isClosed now c.maxMessageSize = r at hq' hclosed ⊢
  obtain ⟨m, q'⟩ := r
  dsimp only at hq' hclosed ⊢
  subst hq'
  cases m with
  | none => simp [outboxOf, hc, List.getElem?_set_self hk]
  | some m =>
    have hopen : c.isClosed = false := by simpa using hclosed
    have hi : q.conversation < h.conversations.length := (List.getElem?_eq_some_iff.1 hc).1
    dsimp only
    obtain ⟨effects, hturn⟩ := turn_enqueue_eq
      (h := { h with queries := h.queries.set k { q with slot, stage } }) hc hopen m
    rw [hturn]
    refine ⟨List.getElem?_set_self hk, ?_⟩
    simp only [outboxOf, List.getElem?_set_self hi, Outbox.held_offer, Option.toList_some]

theorem answerQuery_spec (hq : h.queries[k]? = some q)
    (hc : h.conversations[q.conversation]? = some c) (now : Nat) :
    (h.answerQuery now k).queries[k]? =
        some ((h.presented now q).conclude c.isClosed now c.maxMessageSize).2 ∧
      (h.answerQuery now k).outboxOf q.conversation = c.outbox.held ++
        ((h.presented now q).conclude c.isClosed now c.maxMessageSize).1.toList := by
  obtain ⟨nodes, events, hlook⟩ := answerQuery_eq hq now
  have hconversation := (h.later_presented now q).conversation
  rw [hlook, ← hconversation]
  rw [← hconversation] at hc
  have hk : k < (h.queries.set k (h.presented now q)).length := by
    rw [List.length_set]
    exact (List.getElem?_eq_some_iff.1 hq).1
  exact concludeQuery_spec
    (h := { h with queries := h.queries.set k (h.presented now q), nodes, events }) hk hc now

theorem answerQuery_of_none (hq : h.queries[k]? = some q)
    (hc : h.conversations[q.conversation]? = none) (now : Nat) : h.answerQuery now k = h := by
  have howner : h.owner? q.conversation = none := by simp [owner?, hc]
  have hconclude : h.concludeQuery now k q = h := by simp only [concludeQuery, hc]
  by_cases hstage : q.stage = .fresh
  · simp only [answerQuery, hq, hstage, if_true, presentQuery, howner, hconclude]
  · simp only [answerQuery, hq, hstage, if_false, hconclude]

theorem closed_undertake (K : KeyScheme) {i : Nat} (d : Deed) (hc : h.conversations[i]? = some c)
    (hclosed : c.isClosed = true) :
    ∃ c', (h.undertake K d).conversations[i]? = some c' ∧ c'.isClosed = true := by
  cases d with
  | act a =>
    obtain ⟨c', hc', hclosed', -⟩ := closed_perform K [a] hc hclosed
    exact ⟨c', hc', hclosed'⟩
  | copyHeld n place =>
    refine ⟨c, ?_, hclosed⟩
    change (h.copyHeld n place).conversations[i]? = some c
    rw [copyHeld]
    split <;> exact hc
  | dropHeld n place =>
    refine ⟨c, ?_, hclosed⟩
    change (h.dropHeld n place).conversations[i]? = some c
    rw [dropHeld]
    split <;> exact hc

end Host

/-! ## The record of a query -/

/-- A host with a record of one of its inbound queries. -/
structure Hearing where
  host : Host
  responses : List (Bytes × Bool) := []
  answers : List Message := []

namespace Host

/-- The responses to a query in what is done, each with whether it counts. -/
def responsesTo (k : Nat) (h : Host) : Deed → List (Bytes × Bool)
  | .act (.run _ (.answer j)) =>
    if j = k then (h.queries[k]?.map h.prompted).getD [] else []
  | .act (.respond n place data) =>
    if (h.held? n place).map Prod.fst = some k then [(data, (h.respond n place data).1)] else []
  | _ => []

def answersTo (K : KeyScheme) (k : Nat) (h : Host) : Deed → List Message
  | .act (.run now (.answer j)) =>
    match h.queries[k]? with
    | some q =>
      if j = k then
        ((h.undertake K (.look now k)).outboxOf q.conversation).drop
          (h.outboxOf q.conversation).length
      else []
    | none => []
  | _ => []

variable {K : KeyScheme} {k : Nat} {h : Host} {q : InboundQuery} {d : Deed}

theorem responsesTo_look (hq : h.queries[k]? = some q) (now : Moment) :
    h.responsesTo k (.look now k) = h.prompted q := by
  simp [Deed.look, responsesTo, hq]

theorem answersTo_look (hq : h.queries[k]? = some q) (now : Moment) :
    h.answersTo K k (.look now k) =
      ((h.answerQuery now.elapsed k).outboxOf q.conversation).drop
        (h.outboxOf q.conversation).length := by
  simp only [answersTo, Deed.look, hq, if_true]
  rfl

theorem nothingTo (hd : ¬ d.Concerns k h) :
    h.responsesTo k d = [] ∧ h.answersTo K k d = [] := by
  cases d with
  | copyHeld => exact ⟨rfl, rfl⟩
  | dropHeld => exact ⟨rfl, rfl⟩
  | act a =>
    cases a with
    | run now activity =>
      cases activity with
      | answer j =>
        simp only [responsesTo, answersTo]
        cases hq : h.queries[k]? with
        | none => simp
        | some q =>
          have hj : j ≠ k := by
            rintro rfl
            exact hd (.look hq now)
          simp [hj]
      | _ => exact ⟨rfl, rfl⟩
    | respond n place data =>
      have hheld : (h.held? n place).map Prod.fst ≠ some k := by
        intro hfirst
        obtain ⟨⟨j, q⟩, hheld, rfl⟩ := Option.map_eq_some_iff.1 hfirst
        exact hd (.respond hheld data)
      exact ⟨by simp [responsesTo, hheld], rfl⟩
    | _ => exact ⟨rfl, rfl⟩

end Host

namespace Hearing

variable (K : KeyScheme) (k : Nat)

def next (w : Hearing) (d : Host.Deed) : Hearing where
  host := w.host.undertake K d
  responses := w.responses ++ w.host.responsesTo k d
  answers := w.answers ++ w.host.answersTo K k d

def course (w : Hearing) (ds : List Host.Deed) : Hearing := ds.foldl (next K k) w

/-- The record is that of the query, which may be still to come. -/
def Faithful (w : Hearing) : Prop :=
  match w.host.queries[k]? with
  | none => w.responses = [] ∧ w.answers = []
  | some q => q.Accounts w.responses w.answers

variable {K k} {w : Hearing} {q : InboundQuery} {c : Conversation}

theorem faithful_start {h : Host} (hnew : h.queries.length ≤ k) :
    ({ host := h } : Hearing).Faithful k := by
  simp [Faithful, List.getElem?_eq_none hnew]

theorem Faithful.accounts (hw : w.Faithful k) (hq : w.host.queries[k]? = some q) :
    q.Accounts w.responses w.answers := by
  simpa only [Faithful, hq] using hw

theorem faithful_of_some (hq : w.host.queries[k]? = some q)
    (ha : q.Accounts w.responses w.answers) : w.Faithful k := by
  simpa only [Faithful, hq] using ha

theorem next_look_eq (hq : w.host.queries[k]? = some q)
    (hc : w.host.conversations[q.conversation]? = some c) (now : Moment) :
    (w.next K k (.look now k)).host.queries[k]? =
        some ((w.host.presented now.elapsed q).conclude c.isClosed now.elapsed
          c.maxMessageSize).2 ∧
      (w.next K k (.look now k)).responses = w.responses ++ w.host.prompted q ∧
      (w.next K k (.look now k)).answers = w.answers ++
        ((w.host.presented now.elapsed q).conclude c.isClosed now.elapsed
          c.maxMessageSize).1.toList := by
  obtain ⟨hquery, houtbox⟩ := Host.answerQuery_spec hq hc now.elapsed
  have hbefore : w.host.outboxOf q.conversation = c.outbox.held := by simp [Host.outboxOf, hc]
  have hanswers : w.host.answersTo K k (.look now k) =
      ((w.host.presented now.elapsed q).conclude c.isClosed now.elapsed
        c.maxMessageSize).1.toList := by
    rw [Host.answersTo_look hq, houtbox, hbefore, List.drop_left]
  exact ⟨hquery, congrArg _ (Host.responsesTo_look hq now), congrArg _ hanswers⟩

theorem next_look_of_none (hq : w.host.queries[k]? = some q)
    (hc : w.host.conversations[q.conversation]? = none) (now : Moment) :
    w.next K k (.look now k) = w := by
  have hhost : w.host.answerQuery now.elapsed k = w.host := Host.answerQuery_of_none hq hc _
  have hresponses : w.host.responsesTo k (.look now k) = [] := by
    rw [Host.responsesTo_look hq]
    simp [Host.prompted, Host.owner?, hc]
  have hanswers : w.host.answersTo K k (.look now k) = [] := by
    rw [Host.answersTo_look hq, hhost, List.drop_length]
  rw [next, hresponses, hanswers, List.append_nil, List.append_nil]
  exact congrArg (Hearing.mk · w.responses w.answers) hhost

theorem next_respond_eq {n place : Nat} (hheld : w.host.held? n place = some (k, q))
    (data : Bytes) :
    (w.next K k (.act (.respond n place data))).host.queries[k]? =
        some { q with slot := (q.slot.respond data).2 } ∧
      (w.next K k (.act (.respond n place data))).responses =
        w.responses ++ [(data, (q.slot.respond data).1)] ∧
      (w.next K k (.act (.respond n place data))).answers = w.answers := by
  have hk := (List.getElem?_eq_some_iff.1 (Host.exists_of_held? hheld)).1
  have hrespond : w.host.respond n place data = ((q.slot.respond data).1,
      { w.host with
        queries := w.host.queries.set k { q with slot := (q.slot.respond data).2 } }.wake
          (.answer k)) := by
    simp only [Host.respond, hheld]
  refine ⟨?_, ?_, List.append_nil _⟩
  · change (w.host.respond n place data).2.queries[k]? = _
    rw [hrespond]
    exact List.getElem?_set_self hk
  · simp [next, Host.responsesTo, hheld, hrespond]

/-- What can become of a query and its record. -/
inductive Outcome (w : Hearing) (q : InboundQuery) :
    InboundQuery → List (Bytes × Bool) → List Message → Prop
  | spared (holders : Nat) : Outcome w q { q with holders } w.responses w.answers
  | looked {c : Conversation} (hc : w.host.conversations[q.conversation]? = some c) (now : Nat) :
    Outcome w q ((w.host.presented now q).conclude c.isClosed now c.maxMessageSize).2
      (w.responses ++ w.host.prompted q)
      (w.answers ++ ((w.host.presented now q).conclude c.isClosed now c.maxMessageSize).1.toList)
  | responded (data : Bytes) : Outcome w q { q with slot := (q.slot.respond data).2 }
      (w.responses ++ [(data, (q.slot.respond data).1)]) w.answers

theorem next_cases (K : KeyScheme) (hq : w.host.queries[k]? = some q) (d : Host.Deed) :
    ∃ q' responses answers, w.Outcome q q' responses answers ∧
      (w.next K k d).host.queries[k]? = some q' ∧
      (w.next K k d).responses = responses ∧ (w.next K k d).answers = answers := by
  by_cases hd : d.Concerns k w.host
  · cases hd with
    | look _ now =>
      cases hc : w.host.conversations[q.conversation]? with
      | none =>
        rw [next_look_of_none hq hc]
        exact ⟨_, _, _, .spared q.holders, hq, rfl, rfl⟩
      | some c => exact ⟨_, _, _, .looked hc now.elapsed, next_look_eq hq hc now⟩
    | respond hheld data =>
      obtain rfl := Option.some.inj (hq.symm.trans (Host.exists_of_held? hheld))
      exact ⟨_, _, _, .responded data, next_respond_eq hheld data⟩
  · obtain ⟨holders, hq'⟩ := (Host.spares_undertake K hd).kept q hq
    obtain ⟨hresponses, hanswers⟩ := Host.nothingTo (K := K) hd
    refine ⟨_, _, _, .spared holders, hq', ?_, ?_⟩
    · exact (congrArg _ hresponses).trans (List.append_nil _)
    · exact (congrArg _ hanswers).trans (List.append_nil _)

section
variable {q' : InboundQuery} {responses : List (Bytes × Bool)} {answers : List Message}

theorem Outcome.accounts (h : w.Outcome q q' responses answers)
    (ha : q.Accounts w.responses w.answers) : q'.Accounts responses answers := by
  cases h with
  | spared => exact ⟨ha.records, ha.abandoned, ha.answers⟩
  | looked _ now => exact (Host.accounts_presented ha w.host now).conclude _ _ _
  | responded data => exact ha.respond data

theorem Outcome.later (h : w.Outcome q q' responses answers) : q.Later q' := by
  cases h with
  | spared => exact ⟨rfl, rfl, rfl, id⟩
  | looked _ now => exact (w.host.later_presented now q).trans (InboundQuery.later_conclude _ _ _ _)
  | responded => exact ⟨rfl, rfl, rfl, id⟩

theorem Outcome.of_done (h : w.Outcome q q' responses answers)
    (ha : q.Accounts w.responses w.answers) (hdone : q.stage = .done) :
    (∃ rs, responses = w.responses ++ rs ∧ ∀ r ∈ rs, r.2 = false) ∧ answers = w.answers := by
  cases h with
  | spared => exact ⟨⟨[], by simp, by simp⟩, rfl⟩
  | looked =>
    refine ⟨⟨[], ?_, by simp⟩, ?_⟩
    · simp [Host.prompted, hdone]
    · simp [Host.presented, InboundQuery.conclude, hdone]
  | responded data =>
    have hcounts := ReplySlot.fst_respond_iff ha.records data
    rw [ha.abandoned_eq_false_iff] at hcounts
    refine ⟨⟨_, rfl, ?_⟩, rfl⟩
    intro r hr
    rw [List.mem_singleton.1 hr]
    simpa [hdone] using hcounts

theorem Outcome.of_closed (h : w.Outcome q q' responses answers)
    (hc : w.host.conversations[q.conversation]? = some c) (hclosed : c.isClosed = true) :
    answers = w.answers := by
  cases h with
  | spared => rfl
  | looked hc' now =>
    obtain rfl := Option.some.inj (hc.symm.trans hc')
    rw [((w.host.presented now q).conclude_frame _ _ _).2 hclosed, Option.toList_none,
      List.append_nil]
  | responded => rfl

end

/-! ## Courses -/

/-- Whatever is done, the record stays that of the query. -/
theorem Faithful.next (hw : w.Faithful k) (d : Host.Deed) : (w.next K k d).Faithful k := by
  cases hq : w.host.queries[k]? with
  | some q =>
    obtain ⟨q', responses, answers, hout, hq', rfl, rfl⟩ := next_cases K hq d
    exact faithful_of_some hq' (hout.accounts (hw.accounts hq))
  | none =>
    -- The query can only come, and then it is new.
    have hd : ¬ d.Concerns k w.host := by
      rintro (⟨hq', -⟩ | ⟨hheld, -⟩)
      · rw [hq] at hq'
        cases hq'
      · rw [Host.exists_of_held? hheld] at hq
        cases hq
    obtain ⟨hresponses, hanswers⟩ := Host.nothingTo (K := K) hd
    simp only [Faithful, hq] at hw
    rw [Hearing.next, hresponses, hanswers, hw.1, hw.2]
    cases hq' : (w.host.undertake K d).queries[k]? with
    | none => simp only [Faithful, hq', List.append_nil, and_self]
    | some q => exact faithful_of_some hq' ((Host.spares_undertake K hd).come hq q hq').accounts

theorem Faithful.course (hw : w.Faithful k) (ds : List Host.Deed) :
    (w.course K k ds).Faithful k := by
  induction ds generalizing w with
  | nil => exact hw
  | cons d ds ih => exact ih (hw.next d)

theorem course_later (hq : w.host.queries[k]? = some q) (ds : List Host.Deed) :
    ∃ q', (w.course K k ds).host.queries[k]? = some q' ∧ q.Later q' := by
  induction ds generalizing w q with
  | nil => exact ⟨q, hq, .refl q⟩
  | cons d ds ih =>
    obtain ⟨q', _, _, hout, hq', -, -⟩ := next_cases K hq d
    obtain ⟨q'', hq'', hlater⟩ := ih hq'
    exact ⟨q'', hq'', hout.later.trans hlater⟩

theorem Faithful.course_of_done (hw : w.Faithful k) (hq : w.host.queries[k]? = some q)
    (hdone : q.stage = .done) (ds : List Host.Deed) :
    (∃ rs, (w.course K k ds).responses = w.responses ++ rs ∧ ∀ r ∈ rs, r.2 = false) ∧
      (w.course K k ds).answers = w.answers := by
  induction ds generalizing w q with
  | nil => exact ⟨⟨[], (List.append_nil _).symm, by simp⟩, rfl⟩
  | cons d ds ih =>
    obtain ⟨q', _, _, hout, hq', rfl, rfl⟩ := next_cases K hq d
    obtain ⟨⟨rs, hresponses, hrs⟩, hanswers⟩ := hout.of_done (hw.accounts hq) hdone
    obtain ⟨⟨rs', hresponses', hrs'⟩, hanswers'⟩ := ih (hw.next d) hq' (hout.later.done hdone)
    refine ⟨⟨rs ++ rs', ?_, List.forall_mem_append.2 ⟨hrs, hrs'⟩⟩, hanswers'.trans hanswers⟩
    rw [← List.append_assoc, ← hresponses]
    exact hresponses'

theorem course_of_closed (hq : w.host.queries[k]? = some q)
    (hc : w.host.conversations[q.conversation]? = some c) (hclosed : c.isClosed = true)
    (ds : List Host.Deed) :
    (w.course K k ds).answers = w.answers := by
  induction ds generalizing w q c with
  | nil => rfl
  | cons d ds ih =>
    obtain ⟨q', _, _, hout, hq', rfl, rfl⟩ := next_cases K hq d
    obtain ⟨c', hc', hclosed'⟩ := Host.closed_undertake K d hc hclosed
    rw [← hout.later.conversation] at hc'
    exact (ih hq' hc' hclosed').trans (hout.of_closed hc hclosed)

/-- A response counts if it is the first one and somebody waits for it. -/
theorem Faithful.fst_respond_iff (hw : w.Faithful k) {n place : Nat}
    (hheld : w.host.held? n place = some (k, q)) (data : Bytes) :
    (w.host.respond n place data).1 = true ↔ w.responses = [] ∧ q.stage ≠ .done := by
  have ha := hw.accounts (Host.exists_of_held? hheld)
  have hrespond : (w.host.respond n place data).1 = (q.slot.respond data).1 := by
    simp only [Host.respond, hheld]
  rw [hrespond, ReplySlot.fst_respond_iff ha.records, ha.abandoned_eq_false_iff]

theorem Faithful.next_look (hw : w.Faithful k) (hq : w.host.queries[k]? = some q) {n : Node}
    (howner : w.host.owner? q.conversation = some (c, n)) (hwaits : q.stage ≠ .done)
    (now : Moment) :
    (∀ r, (w.next K k (.look now k)).responses.head? = some r → r.2 = true) ∧
      (w.next K k (.look now k)).answers =
        q.due c.isClosed c.maxMessageSize (w.next K k (.look now k)).responses ∧
      ∃ q', (w.next K k (.look now k)).host.queries[k]? = some q' ∧
        q'.stage = if c.isClosed = true ∨ (w.next K k (.look now k)).responses ≠ [] ∨
            q'.holders = 0 ∨ w.host.deadline now.elapsed q ≤ now.elapsed
          then .done else .waiting (w.host.deadline now.elapsed q) := by
  have hc : w.host.conversations[q.conversation]? = some c := Host.conversation_of_owner? howner
  have ha := hw.accounts hq
  have hpresented := Host.accounts_presented ha w.host now.elapsed
  have hstage := Host.stage_presented howner hwaits now.elapsed
  have hid := (w.host.later_presented now.elapsed q).id
  obtain ⟨hquery, hresponses, hanswers⟩ := next_look_eq (K := K) hq hc now
  rw [hquery, hresponses, hanswers, ha.eq_nil hwaits, List.nil_append]
  generalize w.host.presented now.elapsed q = p at hpresented hstage hid ⊢
  have hdue (limit : Nat) (responses : List (Bytes × Bool)) :
      p.due c.isClosed limit responses = q.due c.isClosed limit responses := by
    simp only [InboundQuery.due, hid]
  refine ⟨fun r hr => (hpresented.head?_eq hstage r hr).2, ?_⟩
  rw [hpresented.conclude_eq hstage]
  split_ifs with hover
  · exact ⟨by rw [hdue, InboundQuery.toList_head?_due], _, rfl, (if_pos hover).symm⟩
  · have hnone : w.responses ++ w.host.prompted q = [] := by
      by_contra hne
      exact hover (.inr (.inl hne))
    refine ⟨?_, p, rfl, hstage.trans (if_neg hover).symm⟩
    rw [hnone]
    rfl

end Hearing

/-- While an inbound query is being answered, its holders and their copies respond in any order, the
wait ends and the conversation is closed. The first response counts, if somebody still waits for it,
and no other one. The one who waits sends one answer at most: the first response under the id of the
query, if it fits and the conversation is open. When the wait is over, no response counts, and then,
as when the conversation is closed, nothing more is sent. -/
theorem answered_once (K : KeyScheme) {h : Host} {k : Nat} (hnew : h.queries.length ≤ k)
    (ds : List Host.Deed) :
    let w := ({ host := h } : Hearing).course K k ds
    (∀ r ∈ w.responses.tail, r.2 = false) ∧
    (w.answers = [] ∨ ∃ q data, w.host.queries[k]? = some q ∧
      w.responses.head? = some (data, true) ∧ w.answers = [.answer q.id data]) ∧
    ∀ q, w.host.queries[k]? = some q →
      (∀ n place data, w.host.held? n place = some (k, q) →
        ((w.host.respond n place data).1 = true ↔ w.responses = [] ∧ q.stage ≠ .done)) ∧
      (∀ c n now, w.host.owner? q.conversation = some (c, n) → q.stage ≠ .done →
        let w' := w.next K k (.look now k)
        (∀ r, w'.responses.head? = some r → r.2 = true) ∧
        w'.answers = q.due c.isClosed c.maxMessageSize w'.responses ∧
        ∃ q', w'.host.queries[k]? = some q' ∧
          q'.stage = if c.isClosed = true ∨ w'.responses ≠ [] ∨ q'.holders = 0 ∨
              w.host.deadline now.elapsed q ≤ now.elapsed
            then .done else .waiting (w.host.deadline now.elapsed q)) ∧
      ∀ later, let w' := w.course K k later
        (∃ q', w'.host.queries[k]? = some q' ∧ q.Later q') ∧
        (q.stage = .done → w'.answers = w.answers ∧
          ∃ rs, w'.responses = w.responses ++ rs ∧ ∀ r ∈ rs, r.2 = false) ∧
        ∀ c, w.host.conversations[q.conversation]? = some c → c.isClosed = true →
          w'.answers = w.answers := by
  intro w
  have hw : w.Faithful k := (Hearing.faithful_start hnew).course ds
  have hrecord := hw
  rw [Hearing.Faithful] at hrecord
  split at hrecord
  · next hnone =>
    refine ⟨by simp [hrecord.1], .inl hrecord.2, fun q hq => ?_⟩
    rw [hnone] at hq
    cases hq
  next q hq =>
  refine ⟨hrecord.records.once, ?_, fun q' hq' => ?_⟩
  · exact hrecord.answers.imp_right fun ⟨_, data, hfirst, hanswers⟩ =>
      ⟨q, data, hq, hfirst, hanswers⟩
  obtain rfl := Option.some.inj (hq.symm.trans hq')
  refine ⟨fun n place data hheld => hw.fst_respond_iff hheld data,
    fun c n now howner hwaits => hw.next_look hq howner hwaits now, fun later => ?_⟩
  refine ⟨Hearing.course_later hq later, fun hdone => ?_,
    fun c hc hclosed => Hearing.course_of_closed hq hc hclosed later⟩
  exact (hw.course_of_done hq hdone later).symm

/-- A node with two handlers that keep every query, and a conversation in which one comes. -/
def asked : Host :=
  { Host.bind ⟨.v4 1, 1⟩ {} (fun _ => .zeros) 0 with
    nodes := [{
      own := ⟨.replicate 32 7, 0, {}⟩
      id := ⟨.replicate 32 7⟩
      ticket := 0
      messageHandlers := 0
      queryHandlers := [fun _ => .later, fun _ => .later]
      inbox := { capacity := 16 }
      announced := .ofCapacity 1 }]
    conversations := [{
      Conversation.new 0 {} (.new ⟨.replicate 32 7, 0, {}⟩ ⟨⟨.replicate 32 9⟩, {}⟩ {} 0 .zeros) with
      work := [.query (.replicate 32 6) [5]] }] }

/-- One of the two makes a copy, which responds before the other one does. -/
def askedDeeds : List Host.Deed := [
  .act (.run ⟨0, 100⟩ (.converse 0 .receive)), .look ⟨0, 100⟩ 0, .copyHeld 0 1,
  .act (.respond 0 2 [7]), .act (.respond 0 0 [8]), .look ⟨5, 100⟩ 0]

theorem undertake_asked :
    asked.undertake .transparent (.act (.run ⟨0, 100⟩ (.converse 0 .receive))) =
      asked.turn 0 fun t => t.handleNext .transparent ⟨0, 100⟩ := by
  have hreceive := Turn.receive_eq_handleNext .transparent ⟨0, 100⟩
    (t := { conversation := asked.conversations[0], routes := asked.routes }) rfl
      (by decide) (by decide) rfl rfl rfl
  have hconversation : asked.conversations[0]? = some asked.conversations[0] := rfl
  change asked.turn 0 (fun t => t.receive .transparent ⟨0, 100⟩) = _
  simp only [Host.turn, hconversation, hreceive]

/-- The copy's response is the answer, whatever comes after it. -/
theorem answered_once_copy : ∃ w,
    ({ host := asked } : Hearing).course .transparent 0 askedDeeds = w ∧
      w.responses = [([7], true), ([8], false)] ∧
      ∀ later, (w.course .transparent 0 later).answers = [.answer (.replicate 32 6) [7]] := by
  obtain ⟨w, hw⟩ : ∃ w, ({ host := asked } : Hearing).course .transparent 0 askedDeeds = w :=
    ⟨_, rfl⟩
  have hcourse : w.responses = [([7], true), ([8], false)] ∧
      w.answers = [.answer (.replicate 32 6) [7]] ∧
        w.host.queries[0]?.map InboundQuery.stage = some .done := by
    rw [← hw, askedDeeds, Hearing.course, List.foldl_cons, Hearing.next, undertake_asked]
    decide +kernel
  obtain ⟨hresponses, hanswers, hstage⟩ := hcourse
  obtain ⟨q, hq, hdone⟩ := Option.map_eq_some_iff.1 hstage
  have honce := answered_once .transparent (h := asked) (k := 0) (Nat.zero_le _) askedDeeds
  rw [hw] at honce
  refine ⟨w, hw, hresponses, fun later => ?_⟩
  exact (((honce.2.2 q hq).2.2 later).2.1 hdone).1.trans hanswers

end Adnl
