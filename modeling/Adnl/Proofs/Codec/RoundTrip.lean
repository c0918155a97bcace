import Adnl.Packet.Signing
import Adnl.Proofs.Codec.Reading

/-! # A packet survives its encoding

The flag word of a packet says which fields are there, so the reader takes the same path through
them as the writer. Field by field it gives back what was written, paddings included.
-/
namespace Adnl

namespace Flags

theorem has_setIf (f : Flags) (mask probe : UInt32) (present : Bool) :
    (f.setIf mask present).has probe =
      (f.has probe || (present && decide (mask &&& probe ≠ 0))) := by
  cases present with
  | false => simp [setIf]
  | true =>
    have hor : (f.word ||| mask) &&& probe = 0 ↔ f.word &&& probe = 0 ∧ mask &&& probe = 0 := by
      simp only [← UInt32.toNat_inj, UInt32.toNat_and, UInt32.toNat_or, Nat.and_or_distrib_right]
      exact Nat.or_eq_zero_iff
    rw [Bool.eq_iff_iff]
    simp only [setIf, set, has, if_true, Bool.true_and, Bool.or_eq_true, bne_iff_ne, ne_eq, hor,
      decide_eq_true_eq]
    tauto

end Flags

theorem Packet.has_flags (p : Packet) (probe : UInt32) :
    p.flags.has probe =
      (p.sender.isSome && decide (Flags.sender &&& probe ≠ 0) ||
        p.senderId.isSome && decide (Flags.senderId &&& probe ≠ 0) ||
        p.message.isSome && decide (Flags.message &&& probe ≠ 0) ||
        p.messages.isSome && decide (Flags.messages &&& probe ≠ 0) ||
        p.address.isSome && decide (Flags.address &&& probe ≠ 0) ||
        p.priorityAddress.isSome && decide (Flags.priorityAddress &&& probe ≠ 0) ||
        p.seqno.isSome && decide (Flags.seqno &&& probe ≠ 0) ||
        p.confirmSeqno.isSome && decide (Flags.confirmSeqno &&& probe ≠ 0) ||
        p.knownVersion.isSome && decide (Flags.knownVersion &&& probe ≠ 0) ||
        p.knownPriorityVersion.isSome && decide (Flags.knownPriorityVersion &&& probe ≠ 0) ||
        p.reinitDates.isSome && decide (Flags.reinitDates &&& probe ≠ 0) ||
        p.signature.isSome && decide (Flags.signature &&& probe ≠ 0) ||
        p.priority && decide (Flags.priority &&& probe ≠ 0)) := by
  have hnone : (({} : Flags).has probe) = false := by simp [Flags.has]
  simp only [Packet.flags, Flags.has_setIf, hnone, Bool.false_or]

section
open Reader

theorem Address.reads_readPort (port : UInt16) :
    Address.readPort.Reads (Tl.u32 port.toUInt32) port := by
  have hlt := port.toNat_lt
  have hword : Tl.u32 port.toUInt32 = Tl.i32 port.toUInt32.toInt32 := by simp [Tl.i32]
  have hvalue : port.toUInt32.toInt32.toInt = port.toNat := by
    change port.toUInt32.toBitVec.toInt = _
    rw [BitVec.toInt_eq_toNat_of_lt]
    · rfl
    · change 2 * port.toNat < 2 ^ 32
      omega
  have hrange : 0 ≤ port.toUInt32.toInt32.toInt ∧ port.toUInt32.toInt32.toInt < 65536 := by
    rw [hvalue]
    omega
  have hback : UInt16.ofNat port.toUInt32.toInt32.toInt.toNat = port := by
    rw [hvalue, Int.toNat_natCast, UInt16.ofNat_toNat]
  rw [hword]
  refine (reads_i32 port.toUInt32.toInt32).check ?_
  rw [if_pos hrange, hback]
  exact reads_pure port

theorem Address.reads (a : Address) : Address.read.Reads a.encode a := by
  obtain ⟨ip, port⟩ := a
  cases ip with
  | v4 octets =>
    exact (reads_u32 tag4).bind <| (reads_u32 octets).bind <|
      (reads_readPort port).map (Address.mk (.v4 octets))
  | v6 octets =>
    exact (reads_u32 tag6).bind <| (reads_vector octets).bind <|
      (reads_readPort port).map (Address.mk (.v6 octets))

theorem AddressList.reads {l : AddressList} (h : l.addresses.length ≤ maxVectorLength) :
    AddressList.read.Reads l.encode l :=
  (reads_vectorLength h).bind <| (reads_times fun a _ => a.reads).bind <|
    (reads_i32 l.version).bind <| (reads_i32 l.reinitDate).bind <|
    (reads_i32 l.priority).bind <|
    (reads_i32 l.expireAt).map (AddressList.mk l.addresses l.version l.reinitDate l.priority)

/-- The byte string that a message carries, if it carries one. -/
def Message.payload : Message → Bytes
  | .custom data => data
  | .query _ data => data
  | .answer _ data => data
  | .part _ _ _ data => data
  | _ => []

theorem Message.reads {m : Message} (h : m.payload.length < lengthLimit) :
    Message.read.Reads m.encode m := by
  refine (reads_u32 m.tag).bind ?_
  cases m with
  | createChannel key date => exact (reads_vector key).bind <| (reads_i32 date).map _
  | confirmChannel key peerKey date =>
    exact (reads_vector key).bind <| (reads_vector peerKey).bind <| (reads_i32 date).map _
  | custom data => exact (reads_byteString h).map _
  | nop => exact reads_pure _
  | reinit date => exact (reads_i32 date).map _
  | query id data => exact (reads_vector id).bind <| (reads_byteString h).map _
  | answer id data => exact (reads_vector id).bind <| (reads_byteString h).map _
  | part hash totalSize offset data =>
    exact (reads_vector hash).bind <| (reads_i32 totalSize).bind <| (reads_i32 offset).bind <|
      (reads_byteString h).map _

theorem PublicKey.reads (key : PublicKey) : PublicKey.read.Reads key.encode key :=
  (reads_tag PublicKey.tag).bind ((reads_vector key.bytes).map PublicKey.mk)

theorem ReinitDates.reads (d : ReinitDates) : ReinitDates.read.Reads d.encode d :=
  (reads_i32 d.own).bind ((reads_i32 d.receiver).map (ReinitDates.mk d.own))

namespace Packet

/-- A packet that can be written: one of the two message fields at most, a sender's id that belongs
to its key, no more elements in a vector than are read, and byte strings whose length fits. -/
structure WellFormed (p : Packet) : Prop where
  oneField : p.message = none ∨ p.messages = none
  senderAgrees : ∀ key id, p.sender = some key → p.senderId = some id → key.shortId = id
  message : ∀ m, p.message = some m → m.payload.length < lengthLimit
  messages : ∀ ms, p.messages = some ms → ms.length ≤ maxVectorLength ∧
    ∀ m ∈ ms, m.payload.length < lengthLimit
  address : ∀ l, p.address = some l → l.addresses.length ≤ maxVectorLength
  priorityAddress : ∀ l, p.priorityAddress = some l → l.addresses.length ≤ maxVectorLength
  signature : ∀ s, p.signature = some s → s.length < lengthLimit
  rand1 : p.rand1.length < lengthLimit
  rand2 : p.rand2.length < lengthLimit

theorem reads_field {α : Type} {r : Reader α} {encode : α → Bytes} {o : Option α} {present : Bool}
    (hp : present = o.isSome) (h : ∀ a, o = some a → r.Reads (encode a) a) :
    (optional present r).Reads (encodeField encode o) o := by
  subst hp
  cases o with
  | none => exact reads_pure none
  | some a => exact (h a rfl).map some

theorem reads_messages {ms : List Message} (hcount : ms.length ≤ maxVectorLength)
    (hpayload : ∀ m ∈ ms, m.payload.length < lengthLimit) :
    readMessages.Reads (encodeMessages ms) ms :=
  (reads_vectorLength hcount).bind (reads_times fun m hm => Message.reads (hpayload m hm))

variable {p : Packet}

theorem reads_flags (h : p.WellFormed) : readFlags.Reads (Tl.u32 p.flags.word) p.flags := by
  have hdefined : p.flags.hasReserved = false := by
    change p.flags.has (~~~Flags.defined) = false
    simp +decide [has_flags]
  have hone : (p.flags.has Flags.message && p.flags.has Flags.messages) = false := by
    rcases h.oneField with hm | hm <;> simp +decide [has_flags, hm]
  refine (reads_u32 p.flags.word).check ?_
  change Reads (if p.flags.hasReserved then _ else
    if p.flags.has Flags.message && p.flags.has Flags.messages then _ else _) _ _
  rw [hdefined, hone]
  exact reads_pure p.flags

theorem reads_sender (h : p.WellFormed) : (readSender p.flags).Reads
    (encodeField PublicKey.encode p.sender ++ encodeField (·.bytes.toList) p.senderId)
    (p.sender, p.senderId) := by
  have hsender : p.flags.has Flags.sender = p.sender.isSome := by simp +decide [has_flags]
  have hid : p.flags.has Flags.senderId = p.senderId.isSome := by simp +decide [has_flags]
  refine (reads_field hsender fun key _ => key.reads).bind ?_
  refine (reads_field hid fun id _ => (reads_vector id.bytes).map ShortId.mk).check ?_
  split
  · rename_i key id hs hi
    rw [if_pos (h.senderAgrees key id hs hi)]
    exact reads_pure (p.sender, p.senderId)
  · exact reads_pure (p.sender, p.senderId)

theorem reads (h : p.WellFormed) : read.Reads p.encode p := by
  simp only [encode, encodeFields, List.append_assoc]
  refine (reads_tag tag).bind <| (reads_byteString h.rand1).bind <| (reads_flags h).bind ?_
  rw [← List.append_assoc]
  refine (reads_sender h).bind ?_
  refine (reads_field (by simp +decide [has_flags]) fun m hm =>
    Message.reads (h.message m hm)).bind ?_
  refine (reads_field (by simp +decide [has_flags]) fun ms hms =>
    reads_messages (h.messages ms hms).1 (h.messages ms hms).2).bind ?_
  refine (reads_field (by simp +decide [has_flags]) fun l hl =>
    AddressList.reads (h.address l hl)).bind ?_
  refine (reads_field (by simp +decide [has_flags]) fun l hl =>
    AddressList.reads (h.priorityAddress l hl)).bind ?_
  refine (reads_field (by simp +decide [has_flags]) fun n _ => reads_u64 n).bind ?_
  refine (reads_field (by simp +decide [has_flags]) fun n _ => reads_u64 n).bind ?_
  refine (reads_field (by simp +decide [has_flags]) fun v _ => reads_i32 v).bind ?_
  refine (reads_field (by simp +decide [has_flags]) fun v _ => reads_i32 v).bind ?_
  refine (reads_field (by simp +decide [has_flags]) fun d _ => d.reads).bind ?_
  refine (reads_field (by simp +decide [has_flags]) fun s hs =>
    reads_byteString (h.signature s hs)).bind ?_
  have hpriority : p.flags.has Flags.priority = p.priority := by simp +decide [has_flags]
  rw [hpriority]
  exact (reads_byteString h.rand2).map fun rand2 => { p with rand2 }

theorem allMessages_setMessages (p : Packet) (ms : List Message) :
    (p.setMessages ms).allMessages = ms := by
  match ms with
  | [] => rfl
  | [_] => rfl
  | _ :: _ :: _ => rfl

/-- Decoding gives back a well-formed packet as it was encoded, and so the messages that were put
into it, in their order. -/
theorem decode_encode (h : p.WellFormed) :
    decode p.encode = .ok p ∧
      ∀ (q : Packet) (ms : List Message), p = q.setMessages ms →
        (decode p.encode).map allMessages = .ok ms := by
  have hp : decode p.encode = .ok p := whole_of_reads (reads h)
  refine ⟨hp, fun q ms hq => ?_⟩
  rw [hp, hq, Except.map, allMessages_setMessages]

/-- A packet with every field but the one for a single message. One of its byte strings needs the
long form. -/
def full : Packet where
  rand1 := List.replicate 7 1
  sender := some ⟨.replicate 32 2⟩
  senderId := some (PublicKey.shortId ⟨.replicate 32 2⟩)
  messages := some [.nop, .part (.replicate 32 3) 1000 (-4) (List.replicate 254 5)]
  address := some { addresses := [⟨.v4 0x7f000001, 65535⟩, ⟨.v6 (.replicate 16 6), 0⟩] }
  priorityAddress := some { version := -1, reinitDate := 7 }
  seqno := some 0xffffffffffffffff
  confirmSeqno := some 8
  knownVersion := some (-9)
  knownPriorityVersion := some 10
  reinitDates := some ⟨-11, 12⟩
  signature := some (List.replicate 64 13)
  priority := true
  rand2 := List.replicate 15 14

theorem decode_encode_full :
    full.WellFormed ∧ decode full.encode = .ok full ∧
      (decode full.encode).map allMessages =
        .ok [.nop, .part (.replicate 32 3) 1000 (-4) (List.replicate 254 5)] := by
  have h : full.WellFormed :=
    { oneField := .inl rfl
      senderAgrees := by rintro _ _ ⟨⟩ ⟨⟩; rfl
      message := by rintro _ ⟨⟩
      messages := by
        intro ms hms
        rw [← Option.some.inj hms]
        simp only [List.mem_cons, List.not_mem_nil, or_false, forall_eq_or_imp, forall_eq,
          Message.payload, List.length_replicate]
        decide
      address := by rintro _ ⟨⟩; decide
      priorityAddress := by rintro _ ⟨⟩; decide
      signature := by rintro _ ⟨⟩; decide
      rand1 := by decide
      rand2 := by decide }
  exact ⟨h, (decode_encode h).1, (decode_encode h).2 full _ rfl⟩

end Packet

end

end Adnl
