import Adnl.Proofs.Codec.Decoded
import Adnl.Proofs.Sending.Size

/-! # Which packets the peer can read

A pair fills a packet by its size alone, and the decoder also counts the elements of a vector. Every
other bound of the decoder is kept by what a pair builds, so a packet is read back exactly when its
messages are not too many. A small MTU leaves no room for too many.
-/
namespace Adnl

open Reader (lengthLimit maxVectorLength)

theorem Bytes.total_replicate (n a : Nat) : Bytes.total (List.replicate n a) = n * a := by
  induction n with
  | zero => rw [Nat.zero_mul, List.replicate_zero, Bytes.total]
  | succ n ih => rw [List.replicate_succ, Bytes.total, ih, Nat.succ_mul, Nat.add_comm]

namespace Packet

variable {p : Packet}

theorem length_allMessages_le (h : p.WellFormed) : p.allMessages.length ≤ maxVectorLength := by
  rw [allMessages]
  split
  · exact (by decide : 1 ≤ maxVectorLength)
  · rename_i ms _ hms
    exact (h.messages ms hms).1
  · exact Nat.zero_le _

theorem wellFormed_setMessages (h : p.WellFormed) {ms : List Message}
    (hcount : ms.length ≤ maxVectorLength) (hpayload : ∀ m ∈ ms, m.payload.length < lengthLimit) :
    (p.setMessages ms).WellFormed := by
  match ms with
  | [] => exact { h with oneField := .inl rfl, message := nofun, messages := nofun }
  | [m] =>
    refine { h with oneField := .inr rfl, message := ?_, messages := nofun }
    rintro _ ⟨⟩
    exact hpayload m List.mem_cons_self
  | m :: m' :: ms =>
    refine { h with oneField := .inl rfl, message := nofun, messages := ?_ }
    rintro _ ⟨⟩
    exact ⟨hcount, hpayload⟩

theorem wellFormed_sign {K : KeyScheme} (hK : K.SignsBriefly) (seed : Bytes32)
    (h : p.WellFormed) : (p.sign K seed).WellFormed := by
  refine { h with signature := ?_ }
  rintro _ ⟨⟩
  rw [hK]
  decide

end Packet

theorem Supply.length_drawPadding_lt (s : Supply) : s.drawPadding.1.length < lengthLimit := by
  have hsize := s.bytesLength_drawPadding_le
  have hlimit : 17 ≤ lengthLimit := by decide
  rw [Tl.bytesLength] at hsize
  omega

namespace Pair

theorem wellFormed_header (p : Pair) : p.header.WellFormed where
  oneField := .inl rfl
  senderAgrees := nofun
  message := nofun
  messages := nofun
  address := nofun
  priorityAddress := nofun
  signature := nofun
  rand1 := p.supply.length_drawPadding_lt
  rand2 := p.supply.drawPadding.2.length_drawPadding_lt

theorem wellFormed_openHeader (K : KeyScheme) {p : Pair}
    (h : p.own.addresses.addresses.length ≤ maxVectorLength) : (p.openHeader K).WellFormed := by
  refine { p.wellFormed_header with senderAgrees := nofun, address := ?_ }
  intro l hl
  rw [offeredList_eq_some hl]
  exact h

/-- Of the decoder's bounds, only that on the number of messages is left to what is collected. -/
theorem wellFormed_build_iff {K : KeyScheme} (hK : K.SignsBriefly) {p : Pair}
    (hlist : p.own.addresses.addresses.length ≤ maxVectorLength) {ms : List Message}
    (hpayload : ∀ m ∈ ms, m.payload.length < lengthLimit) :
    (p.build K ms).1.WellFormed ↔ ms.length ≤ maxVectorLength := by
  constructor
  · intro h
    have hcount := Packet.length_allMessages_le h
    rwa [allMessages_build] at hcount
  · intro hcount
    rw [fst_build]
    split_ifs
    · exact Packet.wellFormed_setMessages p.wellFormed_header hcount hpayload
    · exact Packet.wellFormed_sign hK _
        (Packet.wellFormed_setMessages (wellFormed_openHeader K hlist) hcount hpayload)

theorem payload_handshakeMessage {K : KeyScheme} {p : Pair} {first m : Message}
    (h : m ∈ p.handshakeMessage K first) : m.payload = [] := by
  rw [handshakeMessage] at h
  split at h
  · rw [List.mem_singleton.1 h]
    rfl
  · split_ifs at h
    · cases h
    · rw [List.mem_singleton.1 h]
      rfl

theorem payload_collect {K : KeyScheme} {p : Pair} {first : Message} {queue : List Message}
    (h : ∀ m ∈ first :: queue, m.payload.length < lengthLimit) :
    ∀ m ∈ (p.collect K first queue).1.messages, m.payload.length < lengthLimit := by
  intro m hm
  rcases mem_collect hm with hhead | rfl | hqueue
  · rw [payload_handshakeMessage hhead]
    decide
  · exact h m List.mem_cons_self
  · exact h m (List.mem_cons_of_mem _ hqueue)

theorem length_handshakeMessage_le (K : KeyScheme) (p : Pair) (first : Message) :
    (p.handshakeMessage K first).length ≤ 1 := by
  rw [handshakeMessage]
  split
  · exact Nat.le_refl 1
  · split_ifs
    · exact Nat.zero_le 1
    · exact Nat.le_refl 1

theorem channelHeaderSize_le (p : Pair) : channelHeaderSize ≤ p.headerSize := by
  rw [headerSize]
  split_ifs
  · exact Nat.le_refl _
  · rw [channelHeaderSize, plainHeaderSize, plainHeaderBase]
    omega

theorem length_le_total (ms : List Message) :
    4 * ms.length ≤ Bytes.total (ms.map Message.encodedLength) := by
  induction ms with
  | nil => exact Nat.zero_le _
  | cons m ms ih =>
    simp only [List.length_cons, List.map_cons, Bytes.total, Message.encodedLength]
    omega

theorem takeFitting_of_lt {mtu size : Nat} (h : mtu < size) (queue : List Message) :
    (takeFitting mtu size queue).messages = [] := by
  cases queue with
  | nil => rfl
  | cons m queue =>
    rw [takeFitting, if_pos (h.trans_le (Nat.le_add_right _ _))]

theorem takeFitting_of_le {mtu size : Nat} {queue : List Message}
    (h : size + Bytes.total (queue.map Message.encodedLength) ≤ mtu) :
    (takeFitting mtu size queue).messages = queue := by
  induction queue generalizing size with
  | nil => rfl
  | cons m queue ih =>
    simp only [List.map_cons, Bytes.total] at h
    rw [takeFitting, if_neg (by omega)]
    exact congrArg (m :: ·) (ih (by omega))

theorem messages_collect_of_le {K : KeyScheme} {p : Pair} {first : Message} {queue : List Message}
    (h : p.baseSize K first + first.encodedLength +
      Bytes.total (queue.map Message.encodedLength) ≤ p.mtu) :
    (p.collect K first queue).1.messages = p.handshakeMessage K first ++ first :: queue := by
  have hfits : p.Fits K first := (Nat.le_add_right _ _).trans h
  rw [fst_collect_of_fits hfits]
  simp only [takeFitting_of_le h]

/-- The messages beside the handshake message fit what the header leaves of the MTU. -/
theorem length_collect_le (K : KeyScheme) (p : Pair) (first : Message) (queue : List Message) :
    (p.collect K first queue).1.messages.length ≤ 1 ∨
      channelHeaderSize + 4 * (p.collect K first queue).1.messages.length ≤ p.mtu := by
  have hheader := p.channelHeaderSize_le
  have hhead := length_handshakeMessage_le K p first
  have hsmall := length_le_total (p.handshakeMessage K first)
  have hone : 4 ≤ first.encodedLength := Nat.le_add_right 4 _
  by_cases hfits : p.Fits K first
  · right
    have hrest := total_takeFitting_le hfits queue
    have hcount := length_le_total (takeFitting p.mtu (p.baseSize K first + first.encodedLength)
      queue).messages
    rw [fst_collect_of_fits hfits]
    simp only [baseSize, List.length_append, List.length_cons] at hrest hcount ⊢
    omega
  · rw [fst_collect_of_not_fits hfits]
    by_cases hbase : p.baseSize K first ≤ p.mtu
    · right
      have hrest := total_takeFitting_le hbase queue
      have hcount := length_le_total (takeFitting p.mtu (p.baseSize K first) queue).messages
      simp only [baseSize, List.length_append] at hrest hcount ⊢
      omega
    · left
      simpa only [takeFitting_of_lt (Nat.lt_of_not_le hbase), List.append_nil] using hhead

/-- A packet that a pair sends is read back as it was exactly when it carries no more messages than
a vector may have, and always when the MTU has no room for more beside the smallest header. -/
theorem decode_sent_iff {K : KeyScheme} (hK : K.SignsBriefly) {p : Pair} {first : Message}
    {queue : List Message} (hlist : p.own.addresses.addresses.length ≤ maxVectorLength)
    (hpayload : ∀ m ∈ first :: queue, m.payload.length < lengthLimit) :
    ∀ q, q = (p.collect K first queue).2 ∨ q = (p.collect K first queue).2.markReady →
      let messages := (p.collect K first queue).1.messages
      let packet := (q.build K messages).1
      (Packet.decode packet.encode = .ok packet ↔ messages.length ≤ maxVectorLength) ∧
        (p.mtu < channelHeaderSize + 4 * (maxVectorLength + 1) →
          Packet.decode packet.encode = .ok packet) := by
  intro q hq messages packet
  have hown : q.own = p.own := by
    rcases hq with rfl | rfl
    · rw [snd_collect]
    · rw [snd_collect]
      rfl
  have hwell : packet.WellFormed ↔ messages.length ≤ maxVectorLength :=
    wellFormed_build_iff hK (hown ▸ hlist) (payload_collect hpayload)
  have hread : Packet.decode packet.encode = .ok packet ↔ packet.WellFormed := by
    constructor
    · exact fun h => (Packet.read_eq_ok (Reader.of_whole h)).2.1
    · exact fun h => Reader.whole_of_reads (Packet.reads h)
  refine ⟨hread.trans hwell, fun hmtu => hread.2 (hwell.2 ?_)⟩
  have hmost : 1 ≤ maxVectorLength := by decide
  rcases length_collect_le K p first queue with hcount | hcount
  · exact hcount.trans hmost
  · change channelHeaderSize + 4 * messages.length ≤ p.mtu at hcount
    omega

/-- A pair with room for some two thousand of the smallest messages. -/
def roomy : Pair := .new blank.own blank.remote { mtu := 8192, queueCapacity := 2048 } 0 .zeros

theorem length_collect_roomy (K : KeyScheme) {queue : List Message}
    (h : Bytes.total (queue.map Message.encodedLength) ≤ 7876) :
    (roomy.collect K .nop queue).1.messages.length = queue.length + 2 := by
  have hsize : roomy.baseSize K .nop + Message.nop.encodedLength = 316 := rfl
  have hmtu : roomy.mtu = 8192 := rfl
  rw [messages_collect_of_le (by omega), List.length_append, List.length_cons]
  exact Nat.add_comm 1 _

theorem decode_sent_iff_roomy :
    ed25519.SignsBriefly ∧ roomy.own.addresses.addresses.length ≤ maxVectorLength ∧
      (∀ m ∈ [Message.nop, .custom [1], .nop], m.payload.length < lengthLimit) ∧
      let sent := roomy.collect ed25519 .nop [.custom [1], .nop]
      sent.1.messages.length = 4 ∧ Packet.decode (sent.2.build ed25519 sent.1.messages).1.encode =
        .ok (sent.2.build ed25519 sent.1.messages).1 := by
  have hK : ed25519.SignsBriefly := curve25519.signsBriefly_keyScheme
  have hlist : roomy.own.addresses.addresses.length ≤ maxVectorLength := by decide
  have hpayload : ∀ m ∈ [Message.nop, .custom [1], .nop], m.payload.length < lengthLimit := by
    decide
  have hsize : Bytes.total ([Message.custom [1], .nop].map Message.encodedLength) ≤ 7876 := by
    decide
  have hcount := length_collect_roomy ed25519 hsize
  refine ⟨hK, hlist, hpayload, hcount, ?_⟩
  refine (decode_sent_iff hK hlist hpayload _ (.inl rfl)).1.2 (hcount.trans_le ?_)
  decide

/-- With a thousand small messages waiting, a packet goes out that its receiver cannot read. -/
theorem decode_sent_crowded :
    roomy.own.addresses.addresses.length ≤ maxVectorLength ∧
      (∀ m ∈ Message.nop :: List.replicate 1024 .nop, m.payload.length < lengthLimit) ∧
      let sent := roomy.collect ed25519 .nop (List.replicate 1024 .nop)
      Packet.decode (sent.2.build ed25519 sent.1.messages).1.encode ≠
        .ok (sent.2.build ed25519 sent.1.messages).1 := by
  refine ⟨by decide, ?_, ?_⟩
  · intro m hm
    have hnop : m = .nop := by
      rw [← List.replicate_succ] at hm
      exact List.eq_of_mem_replicate hm
    rw [hnop]
    decide
  · intro sent h
    have hsize : Bytes.total ((List.replicate 1024 Message.nop).map Message.encodedLength) ≤
        7876 := by
      rw [List.map_replicate, Bytes.total_replicate]
      decide
    have hcount := Packet.length_allMessages_le (Packet.read_eq_ok (Reader.of_whole h)).2.1
    rw [allMessages_build, length_collect_roomy ed25519 hsize, List.length_replicate] at hcount
    exact absurd hcount (by decide)

end Pair

end Adnl
