import Adnl.Conversation.Receive
import Adnl.Conversation.Send
import Adnl.Proofs.Pair.Build

/-! # What a turn leaves alone

Each part of a turn changes a few fields of the conversation, which are named here, and nothing
else.
-/
namespace Adnl

namespace Turn

variable (K : KeyScheme) (t : Turn)

theorem conversation_become (p : Pair) (routes : RouteTable) :
    ∃ inbox sealing, (t.become p routes).conversation =
      { t.conversation with pair := p, inbox, sealing } := by
  simp only [become]
  split_ifs
  · exact ⟨_, _, rfl⟩
  · exact ⟨_, _, rfl⟩
  · exact ⟨_, _, rfl⟩

theorem routes_become (p : Pair) (routes : RouteTable) : (t.become p routes).routes =
    Channel.closeReplaced t.conversation.pair.channel p.channel routes := by
  simp only [become]
  split_ifs <;> rfl

theorem conversation_offer (m : Message) : (t.offer m).conversation =
    { t.conversation with outbox := t.conversation.outbox.offer m } := by
  simp only [offer]
  split_ifs <;> rfl

theorem conversation_refill : t.refill.conversation =
    { t.conversation with outbox := t.conversation.outbox.refill } := by
  simp only [refill]
  split_ifs <;> rfl

theorem routes_offer (m : Message) : (t.offer m).routes = t.routes := by
  simp only [offer]
  split_ifs <;> rfl

theorem routes_refill : t.refill.routes = t.routes := by
  simp only [refill]
  split_ifs <;> rfl

theorem routes_depart (outgoing : Except Error Outgoing) :
    (t.depart outgoing).routes = t.routes := by
  unfold depart
  split <;> rfl

theorem routes_sendFrom (first : Message) (o : Outbox) :
    (t.sendFrom K first o).routes = t.routes := by
  unfold sendFrom
  split
  · rfl
  · exact routes_depart _ _

theorem conversation_depart (outgoing : Except Error Outgoing) :
    ∃ departing sealing, (t.depart outgoing).conversation =
      { t.conversation with departing, sealing } := by
  unfold depart
  split
  · exact ⟨_, _, rfl⟩
  · exact ⟨_, _, rfl⟩
  · exact ⟨_, _, rfl⟩

theorem conversation_sendFrom (first : Message) (o : Outbox) :
    ∃ createSent sent supply departing sealing, (t.sendFrom K first o).conversation =
      { t.conversation with
        pair := { t.conversation.pair with createSent, sent, supply }
        outbox := (o.pack K t.conversation.pair first).2.2
        departing, sealing } := by
  obtain ⟨createSent, hcollect⟩ : ∃ createSent, (t.conversation.pair.collect K first o.queue).2 =
      { t.conversation.pair with createSent } := ⟨_, Pair.snd_collect ..⟩
  by_cases hnone : (t.conversation.pair.collect K first o.queue).1.messages = []
  · have hpack : o.pack K t.conversation.pair first =
        (none, { t.conversation.pair with createSent },
          (o.pack K t.conversation.pair first).2.2) := by
      simp [Outbox.pack, hnone, hcollect]
    rw [sendFrom, hpack]
    exact ⟨_, _, _, _, _, rfl⟩
  · have hpack : ∃ packet sent supply, o.pack K t.conversation.pair first =
        (some packet, { t.conversation.pair with createSent, sent, supply },
          (o.pack K t.conversation.pair first).2.2) := by
      simp only [Outbox.pack, hnone, hcollect, if_false]
      exact ⟨_, _, _, rfl⟩
    obtain ⟨packet, sent, supply, hpack⟩ := hpack
    rw [sendFrom, hpack]
    obtain ⟨supply', hroute⟩ :=
      ({ t.conversation.pair with createSent, sent, supply } : Pair).snd_route K packet
    obtain ⟨departing, sealing, hdepart⟩ := conversation_depart
      { t with conversation := { t.conversation with
        pair := { t.conversation.pair with createSent, sent, supply := supply' }
        outbox := (o.pack K t.conversation.pair first).2.2 } }
      (({ t.conversation.pair with createSent, sent, supply } : Pair).route K packet).1
    refine ⟨createSent, sent, supply', departing, sealing, ?_⟩
    simp only [hroute]
    exact hdepart

theorem isClosed_become (p : Pair) (routes : RouteTable) :
    (t.become p routes).conversation.isClosed = t.conversation.isClosed := by
  obtain ⟨inbox, sealing, hc⟩ := t.conversation_become p routes
  rw [hc]

theorem isClosed_takePacket (now : Moment) (i : Incoming) :
    (t.takePacket K now i).conversation.isClosed = t.conversation.isClosed := by
  rw [takePacket]
  split
  · exact isClosed_become _ _ _
  · exact isClosed_become _ _ _

theorem isClosed_handle (now : Moment) (m : Message) :
    (t.handle K now m).conversation.isClosed = t.conversation.isClosed := by
  cases m with
  | createChannel key date =>
    simp only [handle]
    split
    · rw [enqueue]
      split_ifs
      · exact isClosed_become _ _ _
      · rw [conversation_offer]
        exact isClosed_become _ _ _
    · exact isClosed_become _ _ _
  | confirmChannel => exact isClosed_become _ _ _
  | reinit => exact isClosed_become _ _ _
  | answer =>
    rw [handle, handleAnswer]
    split <;> rfl
  | part =>
    simp only [handle, handlePart]
    split <;> rfl
  | _ => rfl

end Turn

end Adnl
