import Adnl.Host.Contact
import Adnl.Host.Lifecycle
import Adnl.Proofs.Conversation.Frame

/-! # A conversation that is closed and started again

Closing a conversation only marks it and lets its tasks know. From then on the node has no live
conversation with that identity, so the next contact starts one with a new pair.
-/
namespace Adnl

namespace Turn

variable (t : Turn)

theorem close_eq : ∃ tasks : List Task, t.close =
    { t with
      conversation := { t.conversation with isClosed := true }
      signals := t.signals ++ tasks.map Signal.wake } := by
  simp only [close]
  split_ifs with h
  · refine ⟨[], ?_⟩
    rw [← h, List.map_nil, List.append_nil]
  · refine ⟨.receive :: .send :: t.conversation.queries.calls.map fun q => .pursue q.id, ?_⟩
    simp

theorem offer_eq (m : Message) : ∃ tasks : List Task, t.offer m =
    { t with
      conversation := { t.conversation with outbox := t.conversation.outbox.offer m }
      signals := t.signals ++ tasks.map Signal.wake } := by
  simp only [offer]
  split_ifs
  · exact ⟨[.send], rfl⟩
  · refine ⟨[], ?_⟩
    rw [List.map_nil, List.append_nil]

end Turn

namespace Host

variable (h : Host) {i n : Nat} {c : Conversation} {node : Node}

theorem foldl_wake (activities : List Activity) :
    ∃ effects, activities.foldl wake h = { h with effects } := by
  induction activities generalizing h with
  | nil => exact ⟨_, rfl⟩
  | cons a activities ih =>
    obtain ⟨effects, he⟩ := ih (h.wake a)
    exact ⟨effects, he⟩

theorem foldl_absorb_wake (i : Nat) (tasks : List Task) :
    ∃ effects, (tasks.map Signal.wake).foldl (absorb i) h = { h with effects } := by
  have hmap := h.foldl_wake (tasks.map (.converse i))
  rwa [List.foldl_map] at hmap ⊢

theorem turn_eq (hc : h.conversations[i]? = some c) (f : Turn → Turn) {c' : Conversation}
    {routes : RouteTable} {tasks : List Task}
    (hf : f { conversation := c, routes := h.routes } =
      { conversation := c', routes, signals := tasks.map Signal.wake }) :
    ∃ effects, h.turn i f =
      { h with conversations := h.conversations.set i c', routes, effects } := by
  simp only [turn, hc, hf]
  exact foldl_absorb_wake _ i tasks

theorem close_eq (hc : h.conversations[i]? = some c) : ∃ effects, h.close i =
    { h with conversations := h.conversations.set i { c with isClosed := true }, effects } := by
  obtain ⟨tasks, ht⟩ := ({ conversation := c, routes := h.routes } : Turn).close_eq
  obtain ⟨_, hturn⟩ := h.turn_eq hc Turn.close ht
  have hmap := (h.turn i Turn.close).foldl_wake ((h.queriesOf i).map .answer)
  rw [List.foldl_map] at hmap
  obtain ⟨effects, hwake⟩ := hmap
  refine ⟨effects, ?_⟩
  rw [close, hwake, hturn]

theorem live?_close (hn : h.nodes[n]? = some node) (hc : h.conversations[i]? = some c)
    {remote : ShortId} (hpeer : node.peers.lookup remote = some i) :
    (h.close i).live? n remote = none := by
  have hi : i < h.conversations.length := (List.getElem?_eq_some_iff.1 hc).1
  obtain ⟨_, hclose⟩ := h.close_eq hc
  rw [hclose]
  simp [live?, hn, hpeer, List.getElem?_set_self hi]

/-- Contact with an identity without a live conversation starts one with a new pair. -/
theorem connect_of_live?_eq_none (hn : h.nodes[n]? = some node) (hopen : node.isClosed = false)
    {remote : Descriptor} (hlive : h.live? n remote.key.shortId = none) (date : Int32) :
    ∃ h' c', h.connect n remote date = (.ok h.conversations.length, h') ∧
      h'.conversations[h.conversations.length]? = some c' ∧
      c'.pair = .new node.own remote h.config date (h.supplies h.conversations.length) := by
  let pair : Pair := .new node.own remote h.config date (h.supplies h.conversations.length)
  have hnew : (h.start n node remote date).2.conversations[h.conversations.length]? =
      some (.new n h.config pair) := List.getElem?_concat_length
  have hlt := (List.getElem?_eq_some_iff.1 hnew).1
  obtain ⟨tasks, ht⟩ := ({
    conversation := .new n h.config pair
    routes := (h.start n node remote date).2.routes } : Turn).offer_eq .nop
  obtain ⟨effects, hturn⟩ :=
    (h.start n node remote date).2.turn_eq hnew (fun t => t.offer .nop) ht
  have hconnect : h.connect n remote date = (.ok h.conversations.length,
      (h.start n node remote date).2.turn h.conversations.length fun t => t.offer .nop) := by
    simp only [connect, hn, hopen, hlive]
    rfl
  have hfound := List.getElem?_set_self (l := (h.start n node remote date).2.conversations)
    (a := { Conversation.new n h.config pair with
      outbox := (Conversation.new n h.config pair).outbox.offer .nop }) hlt
  rw [hturn] at hconnect
  exact ⟨_, _, hconnect, hfound, rfl⟩

end Host

end Adnl
