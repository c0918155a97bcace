import Adnl.Query.Inbound
import Mathlib.Tactic.Common

/-! # One reply for all copies

All copies of an inbound query share one slot, which the first response takes, whether anybody still
waits for it or not. The one who waits looks at the slot, and after that look either goes on waiting
or does nothing more.
-/
namespace Adnl

namespace ReplySlot

def respondAll (s : ReplySlot) : List Bytes → List (Bytes × Bool)
  | [] => []
  | data :: rest => (data, (s.respond data).1) :: (s.respond data).2.respondAll rest

/-- What a slot is after some responses, each of which is put down with whether it counted. -/
structure Records (s : ReplySlot) (responses : List (Bytes × Bool)) : Prop where
  taken : s.taken = true ↔ responses ≠ []
  answer : ∀ data, s.answer = some data ↔ responses.head? = some (data, true)
  once : ∀ r ∈ responses.tail, r.2 = false
  awaited : s.abandoned = false → ∀ r, responses.head? = some r → r.2 = true

variable {s : ReplySlot} {responses : List (Bytes × Bool)}

theorem records_new : ({} : ReplySlot).Records [] where
  taken := by simp
  answer := by simp
  once := by simp
  awaited := by simp

theorem fst_respond_iff (h : s.Records responses) (data : Bytes) :
    (s.respond data).1 = true ↔ responses = [] ∧ s.abandoned = false := by
  have htaken := h.taken
  rw [respond]
  split_ifs with ht ha
  · simp [htaken.1 ht]
  · simp [ha]
  · have hnone : responses = [] := by
      by_contra hne
      exact ht (htaken.2 hne)
    simpa [hnone] using ha

theorem Records.respond (h : s.Records responses) (data : Bytes) :
    (s.respond data).2.Records (responses ++ [(data, (s.respond data).1)]) := by
  cases responses with
  | nil =>
    have htaken : s.taken = false := by simpa using h.taken
    have hanswer : s.answer = none := by
      refine Option.eq_none_iff_forall_ne_some.2 fun data => ?_
      simpa using h.answer data
    cases ha : s.abandoned with
    | false =>
      simp only [ReplySlot.respond, htaken, ha, Bool.false_eq_true, if_false]
      exact ⟨by simp, by simp, by simp, by simp⟩
    | true =>
      simp only [ReplySlot.respond, htaken, ha, Bool.false_eq_true, if_false, if_true]
      exact ⟨by simp, by simp [hanswer], by simp, by simp⟩
  | cons r rest =>
    have htaken : s.taken = true := h.taken.2 (List.cons_ne_nil _ _)
    simp only [ReplySlot.respond, htaken, if_true]
    refine ⟨by simpa using htaken, h.answer, ?_, h.awaited⟩
    intro r' hr'
    obtain hr' | hr' := List.mem_append.1 hr'
    · exact h.once r' hr'
    · exact (List.mem_singleton.1 hr') ▸ rfl

theorem Records.leave (h : s.Records responses) (answers : List Bytes) :
    (s.leave answers).Records (responses ++ s.respondAll answers) := by
  induction answers generalizing s responses with
  | nil => simpa [respondAll, ReplySlot.leave] using h
  | cons data rest ih =>
    have hrest := ih (h.respond data)
    rwa [List.append_assoc] at hrest

theorem Records.abandon (h : s.Records responses) : s.abandon.Records responses :=
  ⟨h.taken, h.answer, h.once, nofun⟩

theorem abandoned_respond (s : ReplySlot) (data : Bytes) :
    (s.respond data).2.abandoned = s.abandoned := by
  rw [respond]
  split_ifs <;> rfl

theorem abandoned_leave (s : ReplySlot) (answers : List Bytes) :
    (s.leave answers).abandoned = s.abandoned := by
  induction answers generalizing s with
  | nil => rfl
  | cons data rest ih => exact (ih _).trans (s.abandoned_respond data)

theorem leave_append (s : ReplySlot) (answers answers' : List Bytes) :
    s.leave (answers ++ answers') = (s.leave answers).leave answers' := List.foldl_append

end ReplySlot

namespace InboundQuery

/-- What a query is after some responses, when some answers have been sent. -/
structure Accounts (q : InboundQuery) (responses : List (Bytes × Bool)) (answers : List Message) :
    Prop where
  records : q.slot.Records responses
  abandoned : q.slot.abandoned = true ↔ q.stage = .done
  answers : answers = [] ∨ q.stage = .done ∧
    ∃ data, responses.head? = some (data, true) ∧ answers = [.answer q.id data]

structure IsNew (q : InboundQuery) : Prop where
  slot : q.slot = {}
  stage : q.stage = .fresh

/-- The same query at a later time. The wait does not begin again. -/
structure Later (q q' : InboundQuery) : Prop where
  conversation : q'.conversation = q.conversation
  id : q'.id = q.id
  data : q'.data = q.data
  done : q.stage = .done → q'.stage = .done

theorem Later.refl (q : InboundQuery) : q.Later q := ⟨rfl, rfl, rfl, fun h => h⟩

theorem Later.trans {q q' q'' : InboundQuery} (h : q.Later q') (h' : q'.Later q'') :
    q.Later q'' :=
  ⟨h'.conversation.trans h.conversation, h'.id.trans h.id, h'.data.trans h.data,
    fun hdone => h'.done (h.done hdone)⟩

/-- What the one who waits has to send, after some responses. -/
def due (q : InboundQuery) (closed : Bool) (limit : Nat) (responses : List (Bytes × Bool)) :
    List Message :=
  match responses.head? with
  | some (data, true) =>
    if closed = false ∧ (Message.answer q.id data).encodedLength ≤ limit then [.answer q.id data]
    else []
  | _ => []

def prompt (q : InboundQuery) (handlers : List (Bytes → Reply)) : List Bytes :=
  handlers.flatMap fun handler => (handler q.data).answers

variable {q : InboundQuery} {responses : List (Bytes × Bool)} {answers : List Message}

theorem mem_due_iff {closed : Bool} {limit : Nat} {m : Message} :
    m ∈ q.due closed limit responses ↔ ∃ data, responses.head? = some (data, true) ∧
      m = .answer q.id data ∧ closed = false ∧ m.encodedLength ≤ limit := by
  rw [due]
  split
  · next data hfirst =>
    rw [List.mem_ite_nil_right, List.mem_singleton]
    constructor
    · rintro ⟨⟨hopen, hfits⟩, rfl⟩
      exact ⟨data, hfirst, rfl, hopen, hfits⟩
    · rintro ⟨data', hfirst', rfl, hopen, hfits⟩
      obtain ⟨rfl, -⟩ := Prod.mk.inj (Option.some.inj (hfirst.symm.trans hfirst'))
      exact ⟨⟨hopen, hfits⟩, rfl⟩
  · next hother =>
    simp only [List.not_mem_nil, false_iff, not_exists, not_and]
    exact fun data hfirst => absurd hfirst (hother data)

theorem toList_head?_due (q : InboundQuery) (closed : Bool) (limit : Nat)
    (responses : List (Bytes × Bool)) :
    (q.due closed limit responses).head?.toList = q.due closed limit responses := by
  rw [due]
  split
  · split_ifs <;> rfl
  · rfl

theorem IsNew.accounts (h : q.IsNew) : q.Accounts [] [] where
  records := h.slot ▸ ReplySlot.records_new
  abandoned := by simp [h.slot, h.stage]
  answers := .inl rfl

theorem Accounts.abandoned_eq_false_iff (h : q.Accounts responses answers) :
    q.slot.abandoned = false ↔ q.stage ≠ .done := by
  rw [← Bool.not_eq_true, h.abandoned]

theorem Accounts.eq_nil (h : q.Accounts responses answers) (hstage : q.stage ≠ .done) :
    answers = [] := h.answers.resolve_right fun hdone => hstage hdone.1

theorem foldl_present (q : InboundQuery) (handlers : List (Bytes → Reply)) :
    ∃ holders, handlers.foldl present q =
      { q with slot := q.slot.leave (q.prompt handlers), holders } := by
  induction handlers generalizing q with
  | nil => exact ⟨q.holders, rfl⟩
  | cons handler handlers ih =>
    obtain ⟨holders, hrest⟩ := ih (q.present handler)
    refine ⟨holders, hrest.trans ?_⟩
    simp only [present, prompt, List.flatMap_cons, ReplySlot.leave_append]

theorem presentAll_eq (q : InboundQuery) (handlers : List (Bytes → Reply)) (deadline : Nat) :
    ∃ holders, q.presentAll handlers deadline =
      { q with slot := q.slot.leave (q.prompt handlers), holders, stage := .waiting deadline } := by
  obtain ⟨holders, hq⟩ := q.foldl_present handlers
  exact ⟨holders, by rw [presentAll, hq]⟩

theorem Accounts.presentAll (h : q.Accounts responses answers) (hstage : q.stage = .fresh)
    (handlers : List (Bytes → Reply)) (deadline : Nat) :
    (q.presentAll handlers deadline).Accounts
      (responses ++ q.slot.respondAll (q.prompt handlers)) answers := by
  obtain ⟨holders, hq⟩ := q.presentAll_eq handlers deadline
  have hwaits : q.slot.abandoned = false := h.abandoned_eq_false_iff.2 (by simp [hstage])
  rw [hq]
  refine ⟨h.records.leave _, ?_, .inl (h.eq_nil (by simp [hstage]))⟩
  simp [ReplySlot.abandoned_leave, hwaits]

theorem Accounts.respond (h : q.Accounts responses answers) (data : Bytes) :
    ({ q with slot := (q.slot.respond data).2 } : InboundQuery).Accounts
      (responses ++ [(data, (q.slot.respond data).1)]) answers where
  records := h.records.respond data
  abandoned := by
    rw [ReplySlot.abandoned_respond]
    exact h.abandoned
  answers := by
    refine h.answers.imp_right fun ⟨hdone, first, hfirst, hanswers⟩ => ⟨hdone, first, ?_, hanswers⟩
    rw [List.head?_append, hfirst]
    rfl

theorem Accounts.drop (h : q.Accounts responses answers) (hnone : answers = [])
    {m : Option Message} (hm : ∀ a, m = some a → ∃ data, responses.head? = some (data, true) ∧
      a = .answer q.id data) : q.drop.Accounts responses (answers ++ m.toList) where
  records := h.records.abandon
  abandoned := by simp [InboundQuery.drop, ReplySlot.abandon]
  answers := by
    subst hnone
    cases m with
    | none => exact .inl rfl
    | some a =>
      obtain ⟨data, hfirst, rfl⟩ := hm a rfl
      exact .inr ⟨rfl, data, hfirst, rfl⟩

/-- A look changes no more than the slot and the stage, and sends nothing from a closed
conversation. -/
theorem conclude_frame (q : InboundQuery) (closed : Bool) (now limit : Nat) :
    (∃ slot stage, (q.conclude closed now limit).2 = { q with slot, stage }) ∧
      (closed = true → (q.conclude closed now limit).1 = none) := by
  rw [conclude]
  split
  · by_cases hclosed : closed = true
    · rw [if_pos hclosed]
      exact ⟨⟨_, _, rfl⟩, fun _ => rfl⟩
    · rw [if_neg hclosed]
      split
      · exact ⟨⟨_, _, rfl⟩, fun h => absurd h hclosed⟩
      · split_ifs <;> exact ⟨⟨_, _, rfl⟩, fun _ => rfl⟩
  · exact ⟨⟨_, _, rfl⟩, fun _ => rfl⟩

theorem later_conclude (q : InboundQuery) (closed : Bool) (now limit : Nat) :
    q.Later (q.conclude closed now limit).2 := by
  cases hstage : q.stage with
  | waiting deadline =>
    obtain ⟨⟨slot, stage, hq⟩, -⟩ := q.conclude_frame closed now limit
    rw [hq]
    exact ⟨rfl, rfl, rfl, fun hdone => by simp [hstage] at hdone⟩
  | fresh => simpa [conclude, hstage] using Later.refl q
  | done => simpa [conclude, hstage] using Later.refl q

section
variable {deadline : Nat} (h : q.Accounts responses answers) (hstage : q.stage = .waiting deadline)
  (closed : Bool) (now limit : Nat)
include h hstage

theorem Accounts.head?_eq (r : Bytes × Bool) (hr : responses.head? = some r) :
    q.slot.answer = some r.1 ∧ r.2 = true := by
  have hwaits : q.slot.abandoned = false := h.abandoned_eq_false_iff.2 (by simp [hstage])
  have hcounted := h.records.awaited hwaits r hr
  exact ⟨(h.records.answer r.1).2 (by rw [hr, ← hcounted]), hcounted⟩

theorem Accounts.conclude_eq : q.conclude closed now limit =
    if closed = true ∨ responses ≠ [] ∨ q.holders = 0 ∨ deadline ≤ now then
      ((q.due closed limit responses).head?, q.drop)
    else (none, q) := by
  simp only [conclude, hstage]
  cases closed with
  | true =>
    have hdue : q.due true limit responses = [] := by
      rw [due]
      split <;> simp
    simp [hdue]
  | false =>
    cases responses with
    | nil =>
      have hanswer : q.slot.answer = none := by
        refine Option.eq_none_iff_forall_ne_some.2 fun data => ?_
        simpa using h.records.answer data
      simp [hanswer, due]
    | cons r rest =>
      obtain ⟨hanswer, hcounted⟩ := h.head?_eq hstage r rfl
      obtain ⟨data, _⟩ := r
      subst hcounted
      simp only [Bool.false_eq_true, if_false, hanswer, due, List.head?_cons]
      split_ifs <;> simp_all

end

/-- A look keeps the account, with what is sent added to it. -/
theorem Accounts.conclude (h : q.Accounts responses answers) (closed : Bool) (now limit : Nat) :
    (q.conclude closed now limit).2.Accounts responses
      (answers ++ (q.conclude closed now limit).1.toList) := by
  cases hstage : q.stage with
  | waiting deadline =>
    rw [h.conclude_eq hstage]
    split_ifs
    · refine h.drop (h.eq_nil (by simp [hstage])) fun m hm => ?_
      obtain ⟨data, hfirst, hm, -⟩ := mem_due_iff.1 (List.mem_of_head? hm)
      exact ⟨data, hfirst, hm⟩
    · simpa using h
  | fresh => simpa [InboundQuery.conclude, hstage] using h
  | done => simpa [InboundQuery.conclude, hstage] using h

end InboundQuery

end Adnl
