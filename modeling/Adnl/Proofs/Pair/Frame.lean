import Adnl.Pair.Handshake
import Adnl.Pair.Receive
import Adnl.Pair.Send
import Mathlib.Tactic

/-! # What an operation of a pair leaves alone

Each operation changes a few fields of the pair, which are named here, and nothing else.
-/
namespace Adnl.Pair

variable (K : KeyScheme) (p : Pair)

theorem reinit_eq (date now : Int32) :
    ∃ sent received channelSeed channelDate channel createSent peerKnownVersion supply,
      p.reinit date now = { p with
        peerReinitDate := date
        sent, received, channelSeed, channelDate, channel, createSent, peerKnownVersion,
        supply } := by
  rw [reinit]
  split_ifs <;> exact ⟨_, _, _, _, _, _, _, _, rfl⟩

theorem snd_deliver (seqno : Option UInt64) :
    ∃ received, (p.deliver seqno).2 = { p with received } := by
  cases seqno <;> exact ⟨_, rfl⟩

theorem adoptList_eq (l : AddressList) : ∃ addresses listAdopted, p.adoptList l =
    { p with remote := { p.remote with addresses }, listAdopted } := by
  rw [adoptList]
  split_ifs <;> exact ⟨_, _, rfl⟩

theorem applyHeader_eq (packet : Packet) (l : Option AddressList) (source : Address) :
    ∃ addresses listAdopted peerKnownVersion observed, p.applyHeader packet l source =
      { p with
        remote := { p.remote with addresses }
        listAdopted, peerKnownVersion, observed } := by
  cases l with
  | none => exact ⟨_, _, _, _, rfl⟩
  | some l =>
    obtain ⟨_, _, hl⟩ := p.adoptList_eq l
    rw [applyHeader, hl]
    exact ⟨_, _, _, _, rfl⟩

theorem updateList_eq (l : AddressList) : ∃ addresses listAdopted, p.updateList l =
    { p with remote := { p.remote with addresses }, listAdopted } := by
  rw [updateList, Descriptor.update]
  cases l.isNewerThan p.remote.addresses <;> exact ⟨_, _, rfl⟩

theorem snd_install (routes : RouteTable) (key : Bytes32) (date : Int32) (ready : Bool) :
    ∃ channel, (p.install K routes key date ready).2.1 = { p with channel } := by
  have hr : ∃ channel, (install.replace K p routes key date ready).2.1 = { p with channel } := by
    rw [install.replace]
    split
    · exact ⟨_, rfl⟩
    · simp only
      split <;> exact ⟨_, rfl⟩
  rw [install]
  split
  · split_ifs
    · exact ⟨_, rfl⟩
    · exact ⟨_, rfl⟩
    · exact ⟨_, rfl⟩
    · exact hr
  · exact hr

theorem snd_onCreateChannel (routes : RouteTable) (key : Bytes32) (date : Int32) :
    ∃ channel, (p.onCreateChannel K routes key date).2.1 = { p with channel } := by
  obtain ⟨channel, hc⟩ := p.snd_install K routes key date false
  refine ⟨channel, ?_⟩
  rw [← hc, onCreateChannel]
  split <;> rename_i h <;> rw [h]

theorem snd_onConfirmChannel (routes : RouteTable) (key peerKey : Bytes32) (date : Int32) :
    ∃ channel, (p.onConfirmChannel K routes key peerKey date).2.1 = { p with channel } := by
  rw [onConfirmChannel]
  split_ifs
  · exact p.snd_install K routes key date true
  · exact ⟨_, rfl⟩

theorem snd_collect (first : Message) (queue : List Message) :
    (p.collect K first queue).2 = { p with createSent := p.channel.isNone || p.createSent } := by
  change (if p.channel.isNone then { p with createSent := true } else p) = _
  cases p.channel.isNone <;> rfl

theorem snd_build (messages : List Message) :
    ∃ supply, (p.build K messages).2 = { p with supply, sent := p.sent.next.2 } := ⟨_, rfl⟩

theorem snd_route (packet : Packet) : ∃ supply, (p.route K packet).2 = { p with supply } := by
  rw [route]
  split
  · split <;> exact ⟨_, rfl⟩
  · split_ifs
    · exact ⟨_, rfl⟩
    · simp only
      split <;> exact ⟨_, rfl⟩

end Adnl.Pair
