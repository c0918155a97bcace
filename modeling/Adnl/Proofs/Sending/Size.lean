import Adnl.Crypto.Curve25519
import Adnl.Proofs.Pair.Build
import Adnl.Proofs.Pair.Check
import Mathlib.Tactic

/-! # Packets keep to their size

The size of a packet is the sum over its fields. What a pair puts beside the messages is at most the
header size that it reckons with, so a packet of messages that were collected to fit does fit.
-/
namespace Adnl

def KeyScheme.SignsBriefly (K : KeyScheme) : Prop :=
  ∀ seed message, (K.sign seed message).length = 64

theorem Curve.signsBriefly_keyScheme (C : Curve) : C.keyScheme.SignsBriefly := by
  intro seed message
  simp [keyScheme, sign]

namespace Packet

def fieldLength {α : Type} (length : α → Nat) : Option α → Nat
  | none => 0
  | some a => length a

@[simp] theorem fieldLength_none {α : Type} (length : α → Nat) : fieldLength length none = 0 := rfl

@[simp] theorem fieldLength_some {α : Type} (length : α → Nat) (a : α) :
    fieldLength length (some a) = length a := rfl

theorem fieldLength_le {α : Type} {length : α → Nat} {n : Nat} {o : Option α}
    (h : ∀ a, o = some a → length a ≤ n) : fieldLength length o ≤ n := by
  cases o with
  | none => exact Nat.zero_le n
  | some a => exact h a rfl

theorem length_encodeField {α : Type} {encode : α → Bytes} {length : α → Nat}
    (h : ∀ a, (encode a).length = length a) (o : Option α) :
    (encodeField encode o).length = fieldLength length o := by
  cases o with
  | none => rfl
  | some a => exact h a

def messageListLength (ms : List Message) : Nat :=
  4 + Bytes.total (ms.map Message.encodedLength)

theorem length_encodeMessages (ms : List Message) :
    (encodeMessages ms).length = messageListLength ms := by
  simp only [encodeMessages, messageListLength, List.length_append, Tl.length_u32,
    Bytes.length_flatMap, Message.length_encode]

def messagesLength (p : Packet) : Nat :=
  fieldLength Message.encodedLength p.message + fieldLength messageListLength p.messages

def headerLength (p : Packet) : Nat :=
  8 + Tl.bytesLength p.rand1.length + Tl.bytesLength p.rand2.length +
    fieldLength (fun _ => 36) p.sender + fieldLength (fun _ => 32) p.senderId +
    fieldLength AddressList.encodedLength p.address +
    fieldLength AddressList.encodedLength p.priorityAddress +
    fieldLength (fun _ => 8) p.seqno + fieldLength (fun _ => 8) p.confirmSeqno +
    fieldLength (fun _ => 4) p.knownVersion + fieldLength (fun _ => 4) p.knownPriorityVersion +
    fieldLength (fun _ => 8) p.reinitDates +
    fieldLength (fun signature => Tl.bytesLength signature.length) p.signature

theorem length_encodeFields (p : Packet) :
    p.encodeFields.length + 8 + Tl.bytesLength p.rand1.length + Tl.bytesLength p.rand2.length =
      p.headerLength + p.messagesLength := by
  have hkey (key : PublicKey) : key.encode.length = 36 := by simp [PublicKey.encode]
  have hid (id : ShortId) : id.bytes.toList.length = 32 := by simp
  have hdates (d : ReinitDates) : d.encode.length = 8 := by simp [ReinitDates.encode]
  simp only [encodeFields, List.length_append, length_encodeField hkey, length_encodeField hid,
    length_encodeField Message.length_encode, length_encodeField length_encodeMessages,
    length_encodeField AddressList.length_encode, length_encodeField Tl.length_u64,
    length_encodeField Tl.length_i32, length_encodeField hdates,
    length_encodeField Tl.length_byteString, headerLength, messagesLength]
  omega

theorem length_encode (p : Packet) : p.encode.length = p.headerLength + p.messagesLength := by
  have h := p.length_encodeFields
  simp only [encode, List.length_append, Tl.length_u32, Tl.length_byteString]
  omega

theorem headerLength_setMessages (p : Packet) (ms : List Message) :
    (p.setMessages ms).headerLength = p.headerLength := by
  match ms with
  | [] => rfl
  | [_] => rfl
  | _ :: _ :: _ => rfl

@[simp] theorem signature_setMessages (p : Packet) (ms : List Message) :
    (p.setMessages ms).signature = p.signature := by
  match ms with
  | [] => rfl
  | [_] => rfl
  | _ :: _ :: _ => rfl

theorem messagesLength_setMessages_le (p : Packet) (ms : List Message) :
    (p.setMessages ms).messagesLength ≤ messageListLength ms := by
  match ms with
  | [] => exact Nat.zero_le _
  | [m] => simp [setMessages, messagesLength, fieldLength, messageListLength, Bytes.total]
  | m :: m' :: ms => simp [setMessages, messagesLength, fieldLength]

theorem headerLength_sign {K : KeyScheme} (hK : K.SignsBriefly) (seed : Bytes32) {p : Packet}
    (h : p.signature = none) : (p.sign K seed).headerLength = p.headerLength + 68 := by
  simp only [sign, headerLength, h, fieldLength_none, fieldLength_some, hK seed]
  rfl

end Packet

theorem Supply.bytesLength_drawPadding_le (s : Supply) :
    Tl.bytesLength s.drawPadding.1.length ≤ 16 := by
  have h : s.drawPadding.1.length = if s.coin s.coinsDrawn then 7 else 15 := by
    simp only [drawPadding, drawFill, List.length_take, Vector.length_toList]
    split_ifs <;> rfl
  rw [h]
  split_ifs <;> decide

namespace Pair

theorem headerLength_header_le (p : Pair) : p.header.headerLength ≤ 68 := by
  have h1 := p.supply.bytesLength_drawPadding_le
  have h2 := p.supply.drawPadding.2.bytesLength_drawPadding_le
  have hversion : Packet.fieldLength (fun _ => 4) p.header.knownVersion ≤ 4 :=
    Packet.fieldLength_le fun _ _ => Nat.le_refl 4
  simp only [header] at hversion
  simp only [Packet.headerLength, header, Packet.fieldLength_none, Packet.fieldLength_some]
  omega

theorem headerLength_openHeader_le (K : KeyScheme) (p : Pair) :
    (p.openHeader K).headerLength ≤ 104 + p.own.addresses.encodedLength := by
  have hbase := p.headerLength_header_le
  have hlist : Packet.fieldLength AddressList.encodedLength p.offeredList ≤
      p.own.addresses.encodedLength :=
    Packet.fieldLength_le fun l hl => by rw [offeredList_eq_some hl]
  simp only [Packet.headerLength, openHeader, header, Packet.fieldLength_none,
    Packet.fieldLength_some] at hbase ⊢
  omega

theorem headerLength_build_le {K : KeyScheme} (hK : K.SignsBriefly) (p : Pair)
    (ms : List Message) : (p.build K ms).1.headerLength + 4 ≤ p.headerSize := by
  rw [fst_build, headerSize]
  split_ifs
  · have h := p.headerLength_header_le
    rw [Packet.headerLength_setMessages, channelHeaderSize]
    omega
  · have h := p.headerLength_openHeader_le K
    rw [Packet.headerLength_sign hK p.own.seed (Packet.signature_setMessages _ _),
      Packet.headerLength_setMessages, plainHeaderSize, plainHeaderBase, listAllowance]
    omega

theorem messagesLength_build_le (K : KeyScheme) (p : Pair) (ms : List Message) :
    (p.build K ms).1.messagesLength ≤ Packet.messageListLength ms := by
  rw [fst_build]
  split_ifs
  · exact Packet.messagesLength_setMessages_le _ _
  · exact Packet.messagesLength_setMessages_le _ _

/-- Everything beside the messages takes no more than the pair reckons with. -/
theorem length_encode_build_le {K : KeyScheme} (hK : K.SignsBriefly) (p : Pair)
    (ms : List Message) : (p.build K ms).1.encode.length ≤
      p.headerSize + Bytes.total (ms.map Message.encodedLength) := by
  have hheader := p.headerLength_build_le hK ms
  have hmessages := p.messagesLength_build_le K ms
  rw [Packet.messageListLength] at hmessages
  rw [Packet.length_encode]
  omega

theorem headerSize_le (p : Pair) : p.headerSize ≤ plainHeaderSize p.own.addresses := by
  rw [headerSize]
  split_ifs
  · rw [channelHeaderSize, plainHeaderSize, plainHeaderBase]
    omega
  · exact Nat.le_refl _

theorem headerSize_markReady_le (p : Pair) : p.markReady.headerSize ≤ p.headerSize := by
  cases hc : p.channel with
  | none => simp [headerSize, channelReady, markReady, hc]
  | some c =>
    have hready : p.markReady.channelReady = true := by simp [channelReady, markReady, hc]
    rw [headerSize, if_pos hready, headerSize]
    split_ifs
    · exact Nat.le_refl _
    · rw [channelHeaderSize, plainHeaderSize, plainHeaderBase]
      omega

theorem total_handshakeMessage_le (K : KeyScheme) (p : Pair) (first : Message) :
    Bytes.total ((p.handshakeMessage K first).map Message.encodedLength) ≤
      Config.confirmationLength := by
  rw [handshakeMessage]
  split
  · change 40 ≤ 72
    omega
  · split_ifs
    · exact Nat.zero_le _
    · exact Nat.le_refl 72

theorem total_takeFitting_le {mtu size : Nat} (h : size ≤ mtu) (queue : List Message) :
    size + Bytes.total ((takeFitting mtu size queue).messages.map Message.encodedLength) ≤ mtu := by
  induction queue generalizing size with
  | nil => exact h
  | cons m queue ih =>
    rw [takeFitting]
    split_ifs with hm
    · exact h
    · have hrest := ih (Nat.le_of_not_lt hm)
      simp only [List.map_cons, Bytes.total]
      omega

theorem headerSize_collect (K : KeyScheme) (p : Pair) (first : Message) (queue : List Message) :
    (p.collect K first queue).2.headerSize = p.headerSize := by
  rw [snd_collect]
  rfl

/-- With room for a confirmation beside the header, what is collected fits. -/
theorem total_collect_le (K : KeyScheme) {p : Pair}
    (hmtu : plainHeaderSize p.own.addresses + Config.confirmationLength ≤ p.mtu) (first : Message)
    (queue : List Message) :
    p.headerSize +
      Bytes.total ((p.collect K first queue).1.messages.map Message.encodedLength) ≤ p.mtu := by
  have hheader := p.headerSize_le
  have hhead := p.total_handshakeMessage_le K first
  by_cases hfits : p.Fits K first
  · have hrest := total_takeFitting_le hfits queue
    rw [fst_collect_of_fits hfits]
    simp only [baseSize, List.map_append, List.map_cons, Bytes.total_append, Bytes.total] at hrest ⊢
    omega
  · have hbase : p.baseSize K first ≤ p.mtu := by
      rw [baseSize]
      omega
    have hrest := total_takeFitting_le hbase queue
    rw [fst_collect_of_not_fits hfits]
    simp only [baseSize, List.map_append, Bytes.total_append] at hrest ⊢
    omega

/-- A packet keeps to the MTU as long as that has room for the header and one confirmation, also
when the channel becomes ready after its messages were collected: the header never takes more than
is reckoned with. -/
theorem collected_packet_fits {K : KeyScheme} (hK : K.SignsBriefly) (p : Pair) :
    (∀ ms, (p.build K ms).1.encode.length ≤
        p.headerSize + Bytes.total (ms.map Message.encodedLength)) ∧
      (plainHeaderSize p.own.addresses + Config.confirmationLength ≤ p.mtu →
        ∀ first queue q, q = (p.collect K first queue).2 ∨
            q = (p.collect K first queue).2.markReady →
          (q.build K (p.collect K first queue).1.messages).1.encode.length ≤ p.mtu) := by
  refine ⟨p.length_encode_build_le hK, fun hmtu first queue q hq => ?_⟩
  have hcollected := total_collect_le K hmtu first queue
  have hheader : q.headerSize ≤ p.headerSize := by
    have hsame := p.headerSize_collect K first queue
    rcases hq with rfl | rfl
    · exact hsame.le
    · exact hsame ▸ headerSize_markReady_le _
  have hbuilt := q.length_encode_build_le hK (p.collect K first queue).1.messages
  omega

/-- A pair whose own list names thirty IPv6 addresses. -/
def crowded : Pair :=
  { blank with
    own := { blank.own with
      addresses := { addresses := List.replicate 30 ⟨.v6 (.replicate 16 1), 40000⟩ } } }

theorem collected_packet_fits_crowded :
    ed25519.SignsBriefly ∧
      plainHeaderSize crowded.own.addresses + Config.confirmationLength ≤ crowded.mtu ∧
      ((crowded.collect ed25519 .nop [.reinit 1]).2.build ed25519
        (crowded.collect ed25519 .nop [.reinit 1]).1.messages).1.encode.length ≤ crowded.mtu := by
  have hK : ed25519.SignsBriefly := curve25519.signsBriefly_keyScheme
  have hmtu : plainHeaderSize crowded.own.addresses + Config.confirmationLength ≤ crowded.mtu := by
    decide
  exact ⟨hK, hmtu, (collected_packet_fits hK crowded).2 hmtu .nop [.reinit 1] _ (.inl rfl)⟩

end Pair

end Adnl
