import Adnl.Query.Call
import Mathlib.Data.List.Nodup
import Mathlib.Tactic.SplitIfs

/-! # Queries and their answers

The table changes in few ways: a query is asked, its call begins, an answer comes, the call ends, or
whoever asked goes away. Throughout, an answer is expected for exactly the calls that wait and have
none yet, and what a call returns is the answer that came first, if it is an answer.
-/
namespace Adnl

/-- The call has begun and has not ended. -/
def Call.waits (c : Call) : Bool := c.deadline.isSome && c.result.isNone

theorem Call.reply_of_outcome? {c : Call} {closed : Bool} {now : Nat} {data : Bytes}
    (h : c.outcome? closed now = some (.ok data)) : c.reply = some data := by
  rw [outcome?] at h
  cases closed with
  | true => cases h
  | false =>
    cases hreply : c.reply with
    | none =>
      simp only [hreply, Bool.false_eq_true, if_false] at h
      split_ifs at h
      cases h
    | some reply =>
      simp only [hreply, Bool.false_eq_true, if_false] at h
      cases h
      rfl

namespace QueryTable

def waits (t : QueryTable) (id : Bytes32) : Bool := t.calls.any fun c => c.id = id && c.waits

def hasReturned (t : QueryTable) (id : Bytes32) : Bool :=
  t.calls.any fun c => c.id = id && c.result.isSome

/-- What calls return on the way from one table to another. -/
def returns (t t' : QueryTable) : List (Bytes32 × Except Error Bytes) :=
  t'.calls.filterMap fun c => if t.hasReturned c.id then none else c.result.map (c.id, ·)

def abandon (t : QueryTable) (id : Bytes32) : QueryTable where
  pending := t.pending.filter (· ≠ id)
  calls := t.calls.filter (·.id ≠ id)

/-- What may become of the table: with it come the id of the query that is asked, and the answer
that is handled while its call waits. -/
inductive Change (t : QueryTable) : List Bytes32 → List (Bytes32 × Bytes) → QueryTable → Prop
  | same : Change t [] [] t
  | asked {c : Call} (hdeadline : c.deadline = none) (hreply : c.reply = none)
    (hresult : c.result = none) : Change t [c.id] [] (t.add c)
  | begun {c : Call} {now : Nat} (hc : c ∈ t.calls) (hdeadline : c.deadline = none)
    (hresult : c.result = none) : Change t [] [] (t.start c.id now)
  | answered (id : Bytes32) (data : Bytes) :
    Change t [] (if t.waits id then [(id, data)] else []) (t.answer id data).2
  | ended {c : Call} {result : Except Error Bytes} (hc : c ∈ t.calls) (hresult : c.result = none)
    (hok : ∀ data, result = .ok data → c.reply = some data) :
    Change t [] [] (t.finish c.id result)
  | abandoned (id : Bytes32) : Change t [] [] (t.abandon id)

theorem waits_iff {t : QueryTable} {id : Bytes32} :
    t.waits id ↔ ∃ c ∈ t.calls, c.id = id ∧ c.waits := by
  simp [waits]

theorem hasReturned_iff {t : QueryTable} {id : Bytes32} :
    t.hasReturned id ↔ ∃ c ∈ t.calls, c.id = id ∧ c.result.isSome := by
  simp [hasReturned]

theorem mem_of_get? {t : QueryTable} {id : Bytes32} {c : Call} (h : t.get? id = some c) :
    c ∈ t.calls ∧ c.id = id :=
  ⟨List.mem_of_find?_eq_some h, by simpa using List.find?_some h⟩

theorem result_of_get?_start {t : QueryTable} {id : Bytes32} {now : Nat} {c c' : Call}
    (hc : t.get? id = some c) (h : (t.start id now).get? id = some c') :
    c'.result = c.result := by
  let f (c : Call) : Call :=
    if c.id = id then { c with deadline := some (now + c.timeout) } else c
  have hid : (fun c => decide ((f c).id = id)) = fun c => decide (c.id = id) := by
    funext c
    simp only [f]
    split_ifs <;> rfl
  have hfind : (t.start id now).get? id = (t.get? id).map f :=
    List.find?_map.trans (congrArg (fun p => (t.calls.find? p).map f) hid)
  rw [hfind, hc, Option.map_some, Option.some_inj] at h
  rw [← h]
  simp only [f]
  split_ifs <;> rfl

theorem mem_returns {t t' : QueryTable} {r : Bytes32 × Except Error Bytes} :
    r ∈ t.returns t' ↔
      ∃ c ∈ t'.calls, t.hasReturned c.id = false ∧ c.id = r.1 ∧ c.result = some r.2 := by
  obtain ⟨id, result⟩ := r
  simp only [returns, List.mem_filterMap]
  refine exists_congr fun c => and_congr_right fun _ => ?_
  cases t.hasReturned c.id <;> simp [and_comm]

end QueryTable

/-- The call has the first answer that was handled while it waited, and expects one as long as it
waits and has none. -/
structure Call.Matched (pending : List Bytes32) (answered : List (Bytes32 × Bytes)) (c : Call) :
    Prop where
  pending_iff : c.id ∈ pending ↔ c.waits ∧ c.reply = none
  reply_eq : c.reply = answered.lookup c.id
  begun : c.deadline = none → c.reply = none
  returned : ∀ data, c.result = some (.ok data) → c.reply = some data

/-- The queries that were asked, and the answers that were handled while their calls waited, are
those that the table knows of. -/
structure QueryTable.Matched (asked : List Bytes32) (answered : List (Bytes32 × Bytes))
    (t : QueryTable) : Prop where
  nodup : (t.calls.map Call.id).Nodup
  pending_nodup : t.pending.Nodup
  mem_asked : ∀ c ∈ t.calls, c.id ∈ asked
  answered_subset : ∀ a ∈ answered, a.1 ∈ asked
  pending_subset : ∀ id ∈ t.pending, id ∈ t.calls.map Call.id
  calls : ∀ c ∈ t.calls, c.Matched t.pending answered

theorem Call.Matched.congr {pending pending' : List Bytes32}
    {answered answered' : List (Bytes32 × Bytes)} {c : Call} (h : c.Matched pending answered)
    (hpending : c.id ∈ pending' ↔ c.id ∈ pending)
    (hanswered : answered'.lookup c.id = answered.lookup c.id) : c.Matched pending' answered' :=
  ⟨hpending.trans h.pending_iff, h.reply_eq.trans hanswered.symm, h.begun, h.returned⟩

theorem Call.Matched.finish {pending : List Bytes32} {answered : List (Bytes32 × Bytes)} {c : Call}
    {result : Except Error Bytes} (h : c.Matched pending answered) (hresult : c.result = none)
    (hok : ∀ data, result = .ok data → c.reply = some data) :
    Call.Matched (pending.filter (· ≠ c.id)) answered
      { c with result := c.result.or (some result) } where
  pending_iff := by simp [waits]
  reply_eq := h.reply_eq
  begun := h.begun
  returned data hdata := by
    simp only [hresult, Option.none_or, Option.some.injEq] at hdata
    exact hok data hdata

theorem QueryTable.lookup_eq_none {answered : List (Bytes32 × Bytes)} {id : Bytes32}
    (h : ∀ a ∈ answered, a.1 ≠ id) : answered.lookup id = none :=
  List.lookup_eq_none_iff.2 fun a ha => by simpa using (h a ha).symm

namespace QueryTable.Matched

variable {asked : List Bytes32} {answered : List (Bytes32 × Bytes)} {t : QueryTable}
  (h : t.Matched asked answered)
include h

theorem eq_of_id_eq {c c' : Call} (hc : c ∈ t.calls) (hc' : c' ∈ t.calls) (hid : c'.id = c.id) :
    c' = c :=
  List.inj_on_of_nodup_map h.nodup hc' hc hid

theorem waits_iff {c : Call} (hc : c ∈ t.calls) : t.waits c.id ↔ c.waits := by
  rw [QueryTable.waits_iff]
  constructor
  · rintro ⟨c', hc', hid, hwaits⟩
    rwa [← h.eq_of_id_eq hc hc' hid]
  · exact fun hwaits => ⟨c, hc, rfl, hwaits⟩

/-- The table expects exactly the answers that its calls wait for. -/
theorem mem_pending_iff (id : Bytes32) :
    id ∈ t.pending ↔ t.waits id ∧ answered.lookup id = none := by
  constructor
  · intro hid
    obtain ⟨c, hc, rfl⟩ := List.mem_map.1 (h.pending_subset id hid)
    obtain ⟨hwaits, hreply⟩ := (h.calls c hc).pending_iff.1 hid
    exact ⟨(h.waits_iff hc).2 hwaits, (h.calls c hc).reply_eq ▸ hreply⟩
  · rintro ⟨hwaits, hlookup⟩
    obtain ⟨c, hc, rfl, hcall⟩ := QueryTable.waits_iff.1 hwaits
    exact (h.calls c hc).pending_iff.2 ⟨hcall, (h.calls c hc).reply_eq.trans hlookup⟩

theorem modify {c : Call} (hc : c ∈ t.calls) (f : Call → Call) (hf : ∀ c, (f c).id = c.id)
    {pending : List Bytes32} {answered' : List (Bytes32 × Bytes)}
    (hcall : (f c).Matched pending answered') (hnodup : pending.Nodup)
    (hpending : ∀ id ≠ c.id, id ∈ pending ↔ id ∈ t.pending)
    (hanswered : ∀ id ≠ c.id, answered'.lookup id = answered.lookup id)
    (hasked : ∀ a ∈ answered', a.1 ∈ asked) :
    QueryTable.Matched asked answered' { t.modify c.id f with pending } := by
  have hids : (t.modify c.id f).calls.map Call.id = t.calls.map Call.id := by
    simp only [QueryTable.modify, List.map_map]
    refine List.map_congr_left fun c' _ => ?_
    simp only [Function.comp_apply]
    split_ifs
    · exact hf c'
    · rfl
  have hcalls {c' : Call} (hc' : c' ∈ (t.modify c.id f).calls) :
      c' = f c ∨ c' ∈ t.calls ∧ c'.id ≠ c.id := by
    obtain ⟨c₀, hc₀, rfl⟩ := List.mem_map.1 hc'
    by_cases hid : c₀.id = c.id
    · obtain rfl := h.eq_of_id_eq hc hc₀ hid
      simp only [if_true, true_or]
    · simp only [hid, if_false]
      exact .inr ⟨hc₀, hid⟩
  refine ⟨hids.symm ▸ h.nodup, hnodup, fun c' hc' => ?_, hasked, fun id hid => ?_,
    fun c' hc' => ?_⟩
  · obtain rfl | ⟨hc', -⟩ := hcalls hc'
    · exact (hf c).symm ▸ h.mem_asked c hc
    · exact h.mem_asked c' hc'
  · rw [hids]
    by_cases heq : id = c.id
    · exact heq ▸ List.mem_map_of_mem hc
    · exact h.pending_subset id ((hpending id heq).1 hid)
  · obtain rfl | ⟨hc', hid⟩ := hcalls hc'
    · exact hcall
    · exact (h.calls c' hc').congr (hpending _ hid) (hanswered _ hid)

theorem start {c : Call} (hc : c ∈ t.calls) (hdeadline : c.deadline = none)
    (hresult : c.result = none) (now : Nat) : (t.start c.id now).Matched asked answered := by
  have hmatched := h.calls c hc
  have hnew : c.id ∉ t.pending := by
    simp [hmatched.pending_iff, Call.waits, hdeadline]
  refine h.modify hc (fun c => { c with deadline := some (now + c.timeout) }) (fun _ => rfl) ?_
    (List.nodup_cons.2 ⟨hnew, h.pending_nodup⟩) (fun id hid => ?_) (fun _ _ => rfl)
    h.answered_subset
  · refine ⟨?_, hmatched.reply_eq, fun _ => hmatched.begun hdeadline, hmatched.returned⟩
    simp [Call.waits, hresult, hmatched.begun hdeadline]
  · simp [hid]

theorem finish {c : Call} {result : Except Error Bytes} (hc : c ∈ t.calls)
    (hresult : c.result = none) (hok : ∀ data, result = .ok data → c.reply = some data) :
    (t.finish c.id result).Matched asked answered := by
  refine h.modify hc (fun c => { c with result := c.result.or (some result) }) (fun _ => rfl)
    ((h.calls c hc).finish hresult hok) (h.pending_nodup.filter _) (fun id hid => ?_)
    (fun _ _ => rfl) h.answered_subset
  simp [hid]

theorem append_of_lookup {id : Bytes32} (hid : id ∈ asked) {earlier : Bytes}
    (hlookup : answered.lookup id = some earlier) (data : Bytes) :
    t.Matched asked (answered ++ [(id, data)]) := by
  have hsame (id' : Bytes32) :
      (answered ++ [(id, data)]).lookup id' = answered.lookup id' := by
    rw [List.lookup_append]
    by_cases heq : id' = id
    · rw [heq, hlookup, Option.some_or]
    · simp [List.lookup_cons, beq_eq_false_iff_ne.2 heq]
  refine ⟨h.nodup, h.pending_nodup, h.mem_asked, fun a ha => ?_, h.pending_subset,
    fun c hc => (h.calls c hc).congr Iff.rfl (hsame c.id)⟩
  obtain ha | ha := List.mem_append.1 ha
  · exact h.answered_subset a ha
  · rwa [List.mem_singleton.1 ha]

theorem answer (id : Bytes32) (data : Bytes) : (t.answer id data).2.Matched asked
    (answered ++ if t.waits id then [(id, data)] else []) := by
  by_cases hid : id ∈ t.pending
  · obtain ⟨c, hc, rfl⟩ := List.mem_map.1 (h.pending_subset id hid)
    have hmatched := h.calls c hc
    obtain ⟨hwaits, hreply⟩ := hmatched.pending_iff.1 hid
    have hnone : answered.lookup c.id = none := hmatched.reply_eq ▸ hreply
    rw [QueryTable.answer, if_pos hid, if_pos ((h.waits_iff hc).2 hwaits)]
    refine h.modify hc (fun c => { c with reply := some data }) (fun _ => rfl)
      ⟨?_, ?_, fun hdeadline => ?_, fun data' hdata => ?_⟩ (h.pending_nodup.filter _)
      (fun id hid => ?_) (fun id hid => ?_) fun a ha => ?_
    · simp
    · simp [List.lookup_append, hnone]
    · have hnever : c.deadline = none := hdeadline
      simp [Call.waits, hnever] at hwaits
    · cases hreply.symm.trans (hmatched.returned data' hdata)
    · simp [hid]
    · simp [List.lookup_append, List.lookup_cons, beq_eq_false_iff_ne.2 hid]
    · obtain ha | ha := List.mem_append.1 ha
      · exact h.answered_subset a ha
      · exact List.mem_singleton.1 ha ▸ h.mem_asked c hc
  · rw [QueryTable.answer, if_neg hid]
    split_ifs with hwaits
    · -- The call waits and has its answer: this one comes too late.
      obtain ⟨c, hc, rfl, -⟩ := QueryTable.waits_iff.1 hwaits
      have hsome : answered.lookup c.id ≠ none :=
        fun hnone => hid ((h.mem_pending_iff _).2 ⟨hwaits, hnone⟩)
      obtain ⟨earlier, hearlier⟩ := Option.ne_none_iff_exists'.1 hsome
      exact h.append_of_lookup (h.mem_asked c hc) hearlier data
    · rwa [List.append_nil]

theorem add {c : Call} (hdeadline : c.deadline = none) (hreply : c.reply = none)
    (hresult : c.result = none) (hnew : c.id ∉ asked) :
    (t.add c).Matched (asked ++ [c.id]) answered := by
  have hcalls {id : Bytes32} (hid : id ∈ t.calls.map Call.id) : id ∈ asked := by
    obtain ⟨c', hc', rfl⟩ := List.mem_map.1 hid
    exact h.mem_asked c' hc'
  have hpending : c.id ∉ t.pending := fun hid => hnew (hcalls (h.pending_subset _ hid))
  have hlookup : answered.lookup c.id = none :=
    lookup_eq_none fun a ha hid => hnew (hid ▸ h.answered_subset a ha)
  refine ⟨?_, h.pending_nodup, fun c' hc' => ?_,
    fun a ha => List.mem_append_left _ (h.answered_subset a ha), fun id hid => ?_,
    fun c' hc' => ?_⟩
  · rw [QueryTable.add, List.map_append]
    exact h.nodup.append (List.nodup_singleton _)
      (List.disjoint_singleton.2 fun hid => hnew (hcalls hid))
  · obtain hc' | hc' := List.mem_append.1 hc'
    · exact List.mem_append_left _ (h.mem_asked c' hc')
    · simp [List.mem_singleton.1 hc']
  · rw [QueryTable.add, List.map_append]
    exact List.mem_append_left _ (h.pending_subset id hid)
  · obtain hc' | hc' := List.mem_append.1 hc'
    · exact h.calls c' hc'
    · rw [List.mem_singleton.1 hc']
      refine ⟨?_, hreply.trans hlookup.symm, fun _ => hreply, fun data hdata => ?_⟩
      · simp [QueryTable.add, hpending, Call.waits, hdeadline]
      · cases hresult.symm.trans hdata

theorem abandon (id : Bytes32) : (t.abandon id).Matched asked answered := by
  have hsub : (t.abandon id).calls.Sublist t.calls := List.filter_sublist
  refine ⟨h.nodup.sublist (hsub.map _), h.pending_nodup.filter _,
    fun c hc => h.mem_asked c (hsub.subset hc), h.answered_subset, fun id' hid' => ?_,
    fun c hc => ?_⟩
  · obtain ⟨hmem, hne⟩ := List.mem_filter.1 hid'
    obtain ⟨c, hc, rfl⟩ := List.mem_map.1 (h.pending_subset id' hmem)
    exact List.mem_map_of_mem (List.mem_filter.2 ⟨hc, hne⟩)
  · obtain ⟨hmem, hne⟩ := List.mem_filter.1 hc
    refine (h.calls c hmem).congr ?_ rfl
    simpa [QueryTable.abandon] using fun _ => of_decide_eq_true hne

theorem change {ids : List Bytes32} {answers : List (Bytes32 × Bytes)} {t' : QueryTable}
    (hchange : t.Change ids answers t') (hnodup : (asked ++ ids).Nodup) :
    t'.Matched (asked ++ ids) (answered ++ answers) := by
  cases hchange with
  | same => simpa only [List.append_nil] using h
  | asked hdeadline hreply hresult =>
    rw [List.append_nil]
    refine h.add hdeadline hreply hresult fun hold => ?_
    exact List.disjoint_of_nodup_append hnodup hold (List.mem_singleton_self _)
  | begun hc hdeadline hresult =>
    simpa only [List.append_nil] using h.start hc hdeadline hresult _
  | answered id data => simpa only [List.append_nil] using h.answer id data
  | ended hc hresult hok => simpa only [List.append_nil] using h.finish hc hresult hok
  | abandoned id => simpa only [List.append_nil] using h.abandon id

end QueryTable.Matched

namespace QueryTable

/-- The calls are the same ones, except for those that are new and those that are gone. -/
def Continues (t : QueryTable) (ids : List Bytes32) (t' : QueryTable) : Prop :=
  ∀ c' ∈ t'.calls, c'.id ∈ ids ∨
    ∃ c ∈ t.calls, c.id = c'.id ∧ (c.result.isSome → c'.result.isSome)

theorem Continues.trans {t t' t'' : QueryTable} {ids : List Bytes32} (h : t.Continues ids t')
    (h' : t'.Continues [] t'') : t.Continues ids t'' := by
  intro c'' hc''
  obtain hid | ⟨c', hc', hid', hresult'⟩ := h' c'' hc''
  · cases hid
  · obtain hid | ⟨c, hc, hid, hresult⟩ := h c' hc'
    · exact .inl (hid' ▸ hid)
    · exact .inr ⟨c, hc, hid.trans hid', hresult' ∘ hresult⟩

theorem continues_of_subset {t t' : QueryTable} (h : t'.calls ⊆ t.calls) : t.Continues [] t' :=
  fun c hc => .inr ⟨c, h hc, rfl, id⟩

theorem continues_modify (t : QueryTable) (id : Bytes32) (f : Call → Call)
    (hf : ∀ c, (f c).id = c.id ∧ (c.result.isSome → (f c).result.isSome)) (pending : List Bytes32) :
    t.Continues [] { t.modify id f with pending } := by
  intro c' hc'
  obtain ⟨c, hc, rfl⟩ := List.mem_map.1 hc'
  refine .inr ⟨c, hc, ?_⟩
  split_ifs
  · exact ⟨(hf c).1.symm, (hf c).2⟩
  · exact ⟨rfl, fun h => h⟩

theorem Change.continues {t t' : QueryTable} {ids : List Bytes32}
    {answers : List (Bytes32 × Bytes)} (h : t.Change ids answers t') : t.Continues ids t' := by
  cases h with
  | same => exact continues_of_subset (List.Subset.refl _)
  | asked =>
    intro c' hc'
    obtain hc' | hc' := List.mem_append.1 hc'
    · exact .inr ⟨c', hc', rfl, id⟩
    · rw [List.mem_singleton.1 hc']
      exact .inl (List.mem_singleton_self _)
  | @begun c now =>
    exact t.continues_modify c.id (fun c => { c with deadline := some (now + c.timeout) })
      (fun _ => ⟨rfl, id⟩) _
  | answered id data =>
    rw [answer]
    split_ifs
    · exact t.continues_modify id (fun c => { c with reply := some data })
        (fun _ => ⟨rfl, fun h => h⟩) _
    · exact continues_of_subset (List.Subset.refl _)
  | @ended c result =>
    exact t.continues_modify c.id (fun c => { c with result := c.result.or (some result) })
      (fun c => ⟨rfl, fun _ => by simp⟩) _
  | abandoned => exact continues_of_subset (List.filter_subset_self _)

/-- The results that have been returned are those of the calls. -/
structure Returned (asked : List Bytes32) (answered : List (Bytes32 × Bytes))
    (returned : List (Bytes32 × Except Error Bytes)) (t : QueryTable) : Prop where
  nodup : (returned.map Prod.fst).Nodup
  asked : ∀ r ∈ returned, r.1 ∈ asked
  calls : ∀ c ∈ t.calls, c.id ∈ returned.map Prod.fst ↔ c.result.isSome
  answered : ∀ id data, (id, .ok data) ∈ returned → answered.lookup id = some data

theorem nodup_returns {t t' : QueryTable} (h : (t'.calls.map Call.id).Nodup) :
    ((t.returns t').map Prod.fst).Nodup := by
  have hid {c : Call} {r : Bytes32 × Except Error Bytes}
      (hr : (if t.hasReturned c.id then none else c.result.map (c.id, ·)) = some r) :
      r.1 = c.id := by
    split_ifs at hr
    obtain ⟨result, -, rfl⟩ := Option.map_eq_some_iff.1 hr
    rfl
  rw [List.Nodup, List.pairwise_map] at h ⊢
  rw [returns, List.pairwise_filterMap]
  refine h.imp fun hne r hr r' hr' => ?_
  rwa [hid hr, hid hr']

theorem Matched.hasReturned_iff {asked : List Bytes32} {answered : List (Bytes32 × Bytes)}
    {t : QueryTable} (h : t.Matched asked answered) {c : Call} (hc : c ∈ t.calls) :
    t.hasReturned c.id ↔ c.result.isSome := by
  rw [QueryTable.hasReturned_iff]
  constructor
  · rintro ⟨c', hc', hid, hresult⟩
    rwa [← h.eq_of_id_eq hc hc' hid]
  · exact fun hresult => ⟨c, hc, rfl, hresult⟩

theorem Returned.append {asked ids : List Bytes32} {answered answered' : List (Bytes32 × Bytes)}
    {returned : List (Bytes32 × Except Error Bytes)} {t t' : QueryTable}
    (h : t.Returned asked answered returned) (ht : t.Matched asked answered)
    (ht' : t'.Matched (asked ++ ids) answered') (hnodup : (asked ++ ids).Nodup)
    (hcontinues : t.Continues ids t') (hanswered : answered <+: answered') :
    t'.Returned (asked ++ ids) answered' (returned ++ t.returns t') := by
  -- The record so far tells for each call whether the table had returned it, also for a new one.
  have hknown (c' : Call) (hc' : c' ∈ t'.calls) :
      (c'.id ∈ returned.map Prod.fst ↔ t.hasReturned c'.id) ∧
        (t.hasReturned c'.id → c'.result.isSome) := by
    obtain hnew | ⟨c, hc, hid, hresult⟩ := hcontinues c' hc'
    · have hunasked : c'.id ∉ asked := fun hold => List.disjoint_of_nodup_append hnodup hold hnew
      have hunknown : ¬ t.hasReturned c'.id := by
        rw [QueryTable.hasReturned_iff]
        rintro ⟨c, hc, hid, -⟩
        exact hunasked (hid ▸ ht.mem_asked c hc)
      refine ⟨iff_of_false (fun hmem => ?_) hunknown, fun hold => absurd hold hunknown⟩
      obtain ⟨r, hr, hid⟩ := List.mem_map.1 hmem
      exact hunasked (hid ▸ h.asked r hr)
    · rw [← hid, h.calls c hc, ht.hasReturned_iff hc]
      exact ⟨Iff.rfl, hresult⟩
  refine ⟨?_, fun r hr => ?_, fun c' hc' => ?_, fun id data hmem => ?_⟩
  · rw [List.map_append]
    refine h.nodup.append (nodup_returns ht'.nodup) fun id hold hnew => ?_
    obtain ⟨r, hr, rfl⟩ := List.mem_map.1 hnew
    obtain ⟨c', hc', hunknown, hid, -⟩ := mem_returns.1 hr
    rw [← hid, (hknown c' hc').1, hunknown] at hold
    cases hold
  · obtain hr | hr := List.mem_append.1 hr
    · exact List.mem_append_left _ (h.asked r hr)
    · obtain ⟨c', hc', -, hid, -⟩ := mem_returns.1 hr
      exact hid ▸ ht'.mem_asked c' hc'
  · rw [List.map_append, List.mem_append, (hknown c' hc').1]
    constructor
    · rintro (hold | hnew)
      · exact (hknown c' hc').2 hold
      · obtain ⟨r, hr, hid⟩ := List.mem_map.1 hnew
        obtain ⟨c'', hc'', -, hid', hresult⟩ := mem_returns.1 hr
        rw [← ht'.eq_of_id_eq hc' hc'' (hid'.trans hid), hresult]
        rfl
    · intro hresult
      obtain ⟨result, hresult⟩ := Option.isSome_iff_exists.1 hresult
      by_cases hold : t.hasReturned c'.id
      · exact .inl hold
      · exact .inr (List.mem_map.2 ⟨(c'.id, result),
          mem_returns.2 ⟨c', hc', Bool.eq_false_iff.2 hold, rfl, hresult⟩, rfl⟩)
  · obtain hmem | hmem := List.mem_append.1 hmem
    · obtain ⟨later, rfl⟩ := hanswered
      rw [List.lookup_append, h.answered id data hmem, Option.some_or]
    · obtain ⟨c', hc', -, rfl, hresult⟩ := mem_returns.1 hmem
      have hmatched := ht'.calls c' hc'
      exact hmatched.reply_eq.symm.trans (hmatched.returned data hresult)

end QueryTable

end Adnl
