import Adnl.Proofs.Host.Peers
import Adnl.Proofs.Host.Strangers
import Adnl.Proofs.Queries.Account

/-! # What concerns an inbound query

On a host anything may happen while an inbound query is being answered. Nothing of that concerns the
query but the responses to it and the looks of the one who waits for them.
-/
namespace Adnl

namespace Host

/-- What happens from one host to the other has nothing to do with the query of this number, but
that it may have come, or that somebody may have got or given up a copy. -/
structure Spares (k : Nat) (h h' : Host) : Prop where
  kept : ∀ q, h.queries[k]? = some q → ∃ holders, h'.queries[k]? = some { q with holders }
  come : h.queries[k]? = none → ∀ q, h'.queries[k]? = some q → q.IsNew

variable {K : KeyScheme} {k : Nat} {h h' h'' : Host}

theorem spares_of_eq (heq : h'.queries = h.queries) : h.Spares k h' where
  kept q hq := ⟨q.holders, heq ▸ hq⟩
  come hnone q hq := by
    rw [heq, hnone] at hq
    cases hq

theorem Spares.trans (hs : h.Spares k h') (hs' : h'.Spares k h'') : h.Spares k h'' where
  kept q hq := by
    obtain ⟨_, hq'⟩ := hs.kept q hq
    obtain ⟨holders, hq''⟩ := hs'.kept _ hq'
    exact ⟨holders, hq''⟩
  come hnone q hq := by
    cases hq' : h'.queries[k]? with
    | none => exact hs'.come hq' q hq
    | some q' =>
      obtain ⟨_, hq''⟩ := hs'.kept q' hq'
      obtain rfl := Option.some.inj (hq''.symm.trans hq)
      exact ⟨(hs.come hnone q' hq').slot, (hs.come hnone q' hq').stage⟩

theorem spares_foldl {α : Type} {f : Host → α → Host} (hf : ∀ (h : Host) a, h.Spares k (f h a))
    (l : List α) (h : Host) : h.Spares k (l.foldl f h) := by
  induction l generalizing h with
  | nil => exact spares_of_eq rfl
  | cons a l ih => exact (hf h a).trans (ih (f h a))

theorem spares_concat {q : InboundQuery} (hq : q.IsNew) (heq : h'.queries = h.queries ++ [q]) :
    h.Spares k h' where
  kept q' hq' := by
    have hlt := (List.getElem?_eq_some_iff.1 hq').1
    exact ⟨q'.holders, by rw [heq, List.getElem?_append_left hlt, hq']⟩
  come hnone q' hq' := by
    rw [heq] at hq'
    obtain hold | ⟨-, rfl⟩ := getElem?_concat_eq_some hq'
    · rw [hnone] at hold
      cases hold
    · exact hq

theorem spares_modify {f : InboundQuery → InboundQuery}
    (hf : ∀ q, ∃ holders, f q = { q with holders }) (j : Nat)
    (heq : h'.queries = h.queries.modify j f) : h.Spares k h' where
  kept q hq := by
    rw [heq, getElem?_modify_of_some hq]
    split_ifs
    · obtain ⟨holders, hfq⟩ := hf q
      exact ⟨holders, by rw [hfq]⟩
    · exact ⟨q.holders, rfl⟩
  come hnone q hq := by
    rw [heq, List.getElem?_modify, hnone] at hq
    cases hq

theorem spares_set_of_ne {j : Nat} (hj : j ≠ k) (q : InboundQuery)
    (heq : h'.queries = h.queries.set j q) : h.Spares k h' where
  kept q' hq' := ⟨q'.holders, by rw [heq, List.getElem?_set_ne hj, hq']⟩
  come hnone q' hq' := by
    rw [heq, List.getElem?_set_ne hj, hnone] at hq'
    cases hq'

theorem spares_set_of_eq {j : Nat} {q q' : InboundQuery} (hq : h.queries[j]? = some q)
    (hq' : ∃ holders, q' = { q with holders }) (heq : h'.queries = h.queries.set j q') :
    h.Spares k h' := by
  by_cases hj : j = k
  · subst hj
    have hlt := (List.getElem?_eq_some_iff.1 hq).1
    obtain ⟨holders, rfl⟩ := hq'
    constructor
    · intro q₀ hq₀
      obtain rfl := Option.some.inj (hq.symm.trans hq₀)
      exact ⟨holders, by rw [heq, List.getElem?_set_self hlt]⟩
    · intro hnone
      rw [hq] at hnone
      cases hnone
  · exact spares_set_of_ne hj q' heq

theorem spares_absorb (h : Host) (i : Nat) (s : Signal) : h.Spares k (h.absorb i s) := by
  cases s with
  | wake => exact spares_of_eq rfl
  | datagram => exact spares_of_eq rfl
  | heard =>
    rw [absorb, hear]
    split <;> exact spares_of_eq rfl
  | asked =>
    rw [absorb, inquire]
    split
    · exact spares_of_eq rfl
    · split_ifs
      · exact spares_of_eq rfl
      · exact spares_concat ⟨rfl, rfl⟩ rfl
  | stopped =>
    rw [absorb, forget]
    split <;> exact spares_of_eq rfl

theorem spares_turn (h : Host) (i : Nat) (f : Turn → Turn) : h.Spares k (h.turn i f) := by
  rw [turn]
  split
  · exact spares_of_eq rfl
  · refine Spares.trans ?_ (spares_foldl (fun h s => h.spares_absorb i s) _ _)
    exact spares_of_eq rfl

theorem spares_route (h : Host) (now : Nat) : h.Spares k (h.route now) := by
  rw [route]
  split_ifs
  · exact spares_of_eq rfl
  · refine Spares.trans ?_ (spares_foldl (fun h d => ?_) _ _)
    · exact spares_of_eq rfl
    · have hqueries := congrArg (fun h : Host => h.queries) (settled_routeDatagram now h d)
      exact spares_of_eq hqueries

theorem spares_serveOne (K : KeyScheme) (h : Host) (n : Nat) (date : Int32) (d : Datagram) :
    h.Spares k (h.serveOne K n date d) := by
  rw [serveOne]
  split
  · exact spares_of_eq ((congrArg Host.queries (h.settled_present n date _)).trans
      (h.queries_welcome n date _))
  · exact spares_of_eq rfl
  · exact spares_of_eq rfl

theorem spares_serveAll (K : KeyScheme) (n : Nat) (date : Int32) (h : Host) (ds : List Datagram) :
    h.Spares k (serveAll K n date h ds) := by
  induction ds generalizing h with
  | nil => exact spares_of_eq rfl
  | cons d rest ih =>
    rw [serveAll_cons]
    split_ifs
    · exact h.spares_serveOne K n date d
    · exact (h.spares_serveOne K n date d).trans (ih _)

theorem spares_serve (K : KeyScheme) (h : Host) (n : Nat) (date : Int32) :
    h.Spares k (h.serve K n date) := by
  rw [serve]
  split
  · exact spares_of_eq rfl
  · split_ifs
    · exact spares_of_eq rfl
    · refine Spares.trans ?_ (spares_serveAll K n date _ _)
      exact spares_of_eq rfl

theorem spares_foldl_wake {α : Type} (f : α → Activity) (l : List α) (h : Host) :
    h.Spares k (l.foldl (fun h a => h.wake (f a)) h) := by
  refine spares_foldl (fun h a => ?_) l h
  exact spares_of_eq rfl

theorem spares_close (h : Host) (i : Nat) : h.Spares k (h.close i) :=
  (h.spares_turn i Turn.close).trans (spares_foldl_wake _ _ _)

theorem spares_closeNode (h : Host) (n : Nat) : h.Spares k (h.closeNode n) := by
  refine Spares.trans ?_ (spares_foldl spares_close _ _)
  exact spares_of_eq rfl

theorem spares_connect (h : Host) (n : Nat) (remote : Descriptor) (date : Int32) :
    h.Spares k (h.connect n remote date).2 := by
  rw [connect]
  split
  · exact spares_of_eq rfl
  · next node _ =>
    split_ifs
    · exact spares_of_eq rfl
    · split
      · exact h.spares_turn _ fun t => t.become (t.conversation.pair.updateList _) t.routes
      · have hstart : h.Spares k (h.start n node remote date).2 := spares_of_eq rfl
        exact hstart.trans (spares_turn _ (h.start n node remote date).1 fun t => t.offer .nop)

theorem queries_prepareQuery (h : Host) (i : Nat) (query : Bytes) (timeout : Nat) :
    (h.prepareQuery i query timeout).2.queries = h.queries := by
  rw [prepareQuery]
  split <;> rfl

theorem exists_of_held? {n place j : Nat} {q : InboundQuery} (hq : h.held? n place = some (j, q)) :
    h.queries[j]? = some q := by
  simp only [held?, Option.bind_eq_bind, Option.bind_eq_some_iff, Option.pure_def,
    Option.some.injEq, Prod.mk.injEq] at hq
  obtain ⟨_, -, _, -, _, hq, rfl, rfl⟩ := hq
  exact hq

/-- What the application does with the copies of queries that it has kept, besides responding, and
everything else that can happen on a host. -/
inductive Deed
  | act (a : Act)
  | copyHeld (n place : Nat)
  | dropHeld (n place : Nat)

def undertake (K : KeyScheme) (h : Host) : Deed → Host
  | .act a => h.act K a
  | .copyHeld n place => h.copyHeld n place
  | .dropHeld n place => h.dropHeld n place

def Deed.look (now : Moment) (k : Nat) : Deed := .act (.run now (.answer k))

/-- What is done concerns the query of this number: a look at it, or a response. -/
inductive Deed.Concerns (k : Nat) (h : Host) : Deed → Prop
  | look {q : InboundQuery} (hq : h.queries[k]? = some q) (now : Moment) :
    Concerns k h (.look now k)
  | respond {n place : Nat} {q : InboundQuery} (hheld : h.held? n place = some (k, q))
    (data : Bytes) : Concerns k h (.act (.respond n place data))

theorem spares_answerQuery_of_ne {j : Nat} (hj : j ≠ k) (now : Nat) (h : Host) :
    h.Spares k (h.answerQuery now j) := by
  have hpresent (h : Host) (q : InboundQuery) : h.Spares k (h.presentQuery now j q) := by
    rw [presentQuery]
    split
    · exact spares_of_eq rfl
    · exact spares_set_of_ne hj _ rfl
  have hconclude (h : Host) (q : InboundQuery) : h.Spares k (h.concludeQuery now j q) := by
    rw [concludeQuery]
    split
    · exact spares_of_eq rfl
    · dsimp only
      split
      · exact spares_set_of_ne hj _ rfl
      · refine Spares.trans ?_ (spares_turn _ _ _)
        exact spares_set_of_ne hj _ rfl
  rw [answerQuery]
  cases hq : h.queries[j]? with
  | none =>
    dsimp only
    rw [hq]
    exact spares_of_eq rfl
  | some q =>
    dsimp only
    split_ifs
    · split
      · exact (hpresent h q).trans (hconclude _ _)
      · exact hpresent h q
    · rw [hq]
      exact hconclude h q

theorem spares_respond_of_ne {n place : Nat} (hk : ∀ q, h.held? n place ≠ some (k, q))
    (data : Bytes) : h.Spares k (h.respond n place data).2 := by
  rw [respond]
  split
  · exact spares_of_eq rfl
  · next j q hq =>
    have hj : j ≠ k := by
      rintro rfl
      exact hk q hq
    exact spares_set_of_ne hj _ rfl

theorem spares_releaseHeld (h : Host) (n : Nat) : h.Spares k (h.releaseHeld n).2 := by
  rw [releaseHeld]
  split
  · exact spares_of_eq rfl
  · refine Spares.trans ?_ (spares_foldl (fun h j => ?_) _ _)
    · exact spares_of_eq rfl
    · exact spares_modify (fun q => ⟨_, rfl⟩) j rfl

theorem spares_afterwards {e : Except Error Host} (he : ∀ h', e = .ok h' → h.Spares k h') :
    h.Spares k (h.afterwards e) := by
  cases e with
  | error => exact spares_of_eq rfl
  | ok h' => exact he h' rfl

theorem spares_copyHeld (h : Host) (n place : Nat) : h.Spares k (h.copyHeld n place) := by
  rw [copyHeld]
  split
  · exact spares_of_eq rfl
  · next j q hq => exact spares_set_of_eq (exists_of_held? hq) ⟨_, rfl⟩ rfl

theorem spares_dropHeld (h : Host) (n place : Nat) : h.Spares k (h.dropHeld n place) := by
  rw [dropHeld]
  split
  · exact spares_of_eq rfl
  · next j q hq => exact spares_set_of_eq (exists_of_held? hq) ⟨_, rfl⟩ rfl

theorem spares_sendMessage (h : Host) (i : Nat) (data : Bytes) :
    h.Spares k (h.sendMessage i data).2 := by
  rw [sendMessage]
  split
  · exact spares_of_eq rfl
  · split
    · exact spares_of_eq rfl
    · split_ifs
      · exact spares_of_eq rfl
      · exact h.spares_turn i fun t => t.offer (.custom data)

theorem spares_dropNode (h : Host) (n : Nat) : h.Spares k (h.dropNode n) := by
  refine (h.spares_closeNode n).trans ?_
  simp only [dropNode]
  split <;> exact spares_of_eq rfl

theorem spares_addNode (K : KeyScheme) (h : Host) (options : NodeOptions) (date : Int32) :
    h.Spares k (h.afterwards ((h.addNode K options date).map Prod.snd)) := by
  refine spares_afterwards fun h' hok => ?_
  rw [addNode] at hok
  split at hok
  · cases hok
  · cases hok
    exact spares_of_eq rfl

theorem spares_listen (h : Host) (id : ShortId) (kind : RouteKind) (capacity : Nat) :
    h.Spares k (h.afterwards (h.listen id kind capacity)) := by
  refine spares_afterwards fun h' hok => ?_
  rw [listen] at hok
  split at hok
  · cases hok
  · cases hok
    exact spares_of_eq rfl

theorem spares_sendTo (h : Host) (id : ShortId) (target : Address) (data : Bytes) :
    h.Spares k (h.afterwards (h.sendTo id target data)) := by
  refine spares_afterwards fun h' hok => ?_
  rw [sendTo] at hok
  split_ifs at hok
  cases hok
  exact spares_of_eq rfl

/-- Only its own looks and the responses to it concern a query. -/
theorem spares_undertake (K : KeyScheme) {d : Deed} (hd : ¬ d.Concerns k h) :
    h.Spares k (h.undertake K d) := by
  cases d with
  | copyHeld n place => exact h.spares_copyHeld n place
  | dropHeld n place => exact h.spares_dropHeld n place
  | act a =>
    change h.Spares k (h.act K a)
    cases a with
    | run now activity =>
      cases activity with
      | route => exact h.spares_route _
      | serve n => exact h.spares_serve K n _
      | converse i task => exact h.spares_turn i fun t => t.run K now task
      | answer j =>
        by_cases hj : j = k
        · subst hj
          cases hq : h.queries[j]? with
          | none =>
            refine spares_of_eq ?_
            change (h.answerQuery now.elapsed j).queries = _
            simp only [answerQuery, hq]
          | some q => exact absurd (.look hq now) hd
        · exact spares_answerQuery_of_ne hj now.elapsed h
    | late now i task => exact h.spares_turn i fun t => t.late K now task
    | vanish i => exact h.spares_turn i Turn.vanish
    | respond n place data =>
      exact spares_respond_of_ne (fun q hheld => hd (.respond hheld data)) data
    | releaseHeld n => exact h.spares_releaseHeld n
    | connect n remote date => exact h.spares_connect n remote date
    | send i data => exact h.spares_sendMessage i data
    | startQuery i query timeout => exact spares_of_eq (h.queries_prepareQuery i query timeout)
    | askQuery now i query timeout =>
      exact (spares_of_eq (h.queries_prepareQuery i query timeout)).trans
        (spares_turn _ i fun t => t.pursue now (h.prepareQuery i query timeout).1)
    | close i => exact h.spares_close i
    | closeNode n => exact h.spares_closeNode n
    | dropNode n => exact h.spares_dropNode n
    | shutDown =>
      refine Spares.trans ?_ (spares_foldl spares_closeNode _ _)
      exact spares_of_eq rfl
    | expire now => exact spares_foldl_wake _ _ _
    | addNode options date => exact h.spares_addNode K options date
    | listen id kind capacity => exact h.spares_listen id kind capacity
    | sendTo id target data => exact h.spares_sendTo id target data
    | unlisten j =>
      change h.Spares k (h.unlisten j)
      rw [unlisten]
      split <;> exact spares_of_eq rfl
    | _ => exact spares_of_eq rfl

end Host

end Adnl
