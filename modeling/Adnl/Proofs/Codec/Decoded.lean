import Adnl.Message.Size
import Adnl.Proofs.Codec.Overrun
import Adnl.Proofs.Codec.RoundTrip
import Adnl.Proofs.Sending.Size

/-! # What the decoder accepts can be encoded

The data may spell a length in the long form and pad with anything, so encoding what was read need
not give the data back. It gives data of the same size, from which the same packet is read: every
reader takes as many bytes as the value that it gives takes to write, and gives only values that can
be written.
-/
namespace Adnl

namespace Reader

/-- Whatever the reader gives is good, and as many bytes are gone as its length tells. -/
def Takes {α : Type} (r : Reader α) (length : α → Nat) (good : α → Prop) : Prop :=
  ∀ ⦃s t : Bytes⦄ ⦃a : α⦄, r s = (.ok a, t) → s.length = t.length + length a ∧ good a

section
variable {α β : Type} {r : Reader α} {length : α → Nat} {good : α → Prop}

theorem Takes.length_eq (hr : r.Takes length good) {s t : Bytes} {a : α} (h : r s = (.ok a, t)) :
    s.length = t.length + length a := (hr h).1

theorem Takes.good_of_eq (hr : r.Takes length good) {s t : Bytes} {a : α} (h : r s = (.ok a, t)) :
    good a := (hr h).2

theorem Takes.map (hr : r.Takes length good) {f : α → β} {length' : β → Nat} {good' : β → Prop}
    (hlength : ∀ a, length' (f a) = length a) (hgood : ∀ a, good a → good' (f a)) :
    Takes (r >>= fun a => pure (f a)) length' good' := by
  intro s t b h
  obtain ⟨a, u, ha, hp⟩ := bind_eq_ok.1 h
  obtain ⟨rfl, rfl⟩ := pure_eq_ok.1 hp
  exact ⟨hlength a ▸ (hr ha).1, hgood a (hr ha).2⟩

theorem Takes.optional (hr : r.Takes length good) (present : Bool) :
    (optional present r).Takes (Packet.fieldLength length)
      fun o => o.isSome = present ∧ ∀ a, o = some a → good a := by
  cases present with
  | false =>
    intro s t o h
    obtain ⟨rfl, rfl⟩ := pure_eq_ok.1 h
    simp
  | true =>
    refine hr.map (fun a => rfl) fun a ha => ⟨rfl, ?_⟩
    rintro b ⟨⟩
    exact ha

theorem Takes.times (hr : r.Takes length good) (n : Nat) :
    (times r n).Takes (fun l => Bytes.total (l.map length))
      fun l => l.length = n ∧ ∀ a ∈ l, good a := by
  induction n with
  | zero =>
    intro s t l h
    obtain ⟨rfl, rfl⟩ := pure_eq_ok.1 h
    simp [Bytes.total]
  | succ n ih =>
    intro s t l h
    obtain ⟨a, u, ha, h⟩ := bind_eq_ok.1 h
    obtain ⟨l, v, hl, h⟩ := bind_eq_ok.1 h
    obtain ⟨rfl, rfl⟩ := pure_eq_ok.1 h
    have hfirst := hr.length_eq ha
    have hrest := ih.length_eq hl
    obtain ⟨hcount, hall⟩ := ih.good_of_eq hl
    refine ⟨?_, congrArg (· + 1) hcount, List.forall_mem_cons.2 ⟨hr.good_of_eq ha, hall⟩⟩
    simp only [List.map_cons, Bytes.total]
    omega

end

theorem takes_raw (n : Nat) : (raw n).Takes (fun _ => n) fun _ => True :=
  fun _ _ _ h => ⟨length_of_raw h, trivial⟩

theorem takes_vector (n : Nat) : (vector n).Takes (fun _ => n) fun _ => True :=
  fun _ _ _ h => ⟨length_of_vector h, trivial⟩

theorem takes_u32 : u32.Takes (fun _ => 4) fun _ => True :=
  (takes_raw 4).map (fun _ => rfl) fun _ _ => trivial

theorem takes_u64 : u64.Takes (fun _ => 8) fun _ => True :=
  (takes_raw 8).map (fun _ => rfl) fun _ _ => trivial

theorem takes_i32 : i32.Takes (fun _ => 4) fun _ => True :=
  takes_u32.map (fun _ => rfl) fun _ _ => trivial

theorem takes_tag (expected : UInt32) : (tag expected).Takes (fun _ => 4) fun _ => True := by
  intro s t a h
  obtain ⟨found, u, hfound, h⟩ := bind_eq_ok.1 h
  split_ifs at h
  · obtain ⟨-, rfl⟩ := pure_eq_ok.1 h
    exact takes_u32 hfound
  · cases h

theorem takes_vectorLength : vectorLength.Takes (fun _ => 4) (· ≤ maxVectorLength) := by
  intro s t n h
  obtain ⟨count, u, hcount, h⟩ := bind_eq_ok.1 h
  split_ifs at h with hle
  · obtain ⟨rfl, rfl⟩ := pure_eq_ok.1 h
    exact ⟨(takes_u32 hcount).1, hle⟩
  · cases h

theorem takes_byteString :
    byteString.Takes (fun b => Tl.bytesLength b.length) fun b => b.length < lengthLimit := by
  intro s t b h
  refine ⟨length_of_byteString h, ?_⟩
  rcases byteString_cases s with ⟨e, he⟩ | ⟨first, hfirst, -, he⟩ | ⟨x, y, z, rest, -, he⟩
  · rw [he] at h
    cases h
  · rw [he] at h
    have hlimit : 254 ≤ lengthLimit := by decide
    exact (length_of_content h).2 ▸ hfirst.trans_le hlimit
  · rw [he] at h
    have hthree : Bytes.toNatLE [x, y, z] < Nat.pow 256 3 := Bytes.toNatLE_lt [x, y, z]
    have hlimit : Nat.pow 256 3 = lengthLimit := by decide
    exact (length_of_content h).2 ▸ hlimit ▸ hthree

end Reader

open Reader

theorem Address.takes_readPort : Address.readPort.Takes (fun _ => 4) fun _ => True := by
  intro s t port h
  obtain ⟨word, u, hword, h⟩ := bind_eq_ok.1 h
  split_ifs at h
  · obtain ⟨-, rfl⟩ := pure_eq_ok.1 h
    exact takes_i32 hword
  · cases h

theorem Address.takes_read : Address.read.Takes Address.encodedLength fun _ => True := by
  intro s t a h
  obtain ⟨tag, u, htag, h⟩ := bind_eq_ok.1 h
  have h0 := takes_u32.length_eq htag
  split_ifs at h
  · obtain ⟨octets, v, hoctets, h⟩ := bind_eq_ok.1 h
    obtain ⟨port, w, hport, h⟩ := bind_eq_ok.1 h
    obtain ⟨rfl, rfl⟩ := pure_eq_ok.1 h
    have h1 := takes_u32.length_eq hoctets
    have h2 := Address.takes_readPort.length_eq hport
    refine ⟨?_, trivial⟩
    simp only [Address.encodedLength]
    omega
  · obtain ⟨octets, v, hoctets, h⟩ := bind_eq_ok.1 h
    obtain ⟨port, w, hport, h⟩ := bind_eq_ok.1 h
    obtain ⟨rfl, rfl⟩ := pure_eq_ok.1 h
    have h1 := (takes_vector 16).length_eq hoctets
    have h2 := Address.takes_readPort.length_eq hport
    refine ⟨?_, trivial⟩
    simp only [Address.encodedLength]
    omega
  · cases h

theorem AddressList.takes_read : AddressList.read.Takes AddressList.encodedLength
    fun l => l.addresses.length ≤ maxVectorLength := by
  intro s t l h
  simp only [AddressList.read, bind_eq_ok, pure_eq_ok] at h
  obtain ⟨count, s0, hcount, addresses, s1, haddresses, _, s2, h2, _, s3, h3, _, s4, h4, _, s5, h5,
    rfl, rfl⟩ := h
  have h0 := takes_vectorLength.length_eq hcount
  have h1 := (Address.takes_read.times count).length_eq haddresses
  have h2 := takes_i32.length_eq h2
  have h3 := takes_i32.length_eq h3
  have h4 := takes_i32.length_eq h4
  have h5 := takes_i32.length_eq h5
  have hlength := ((Address.takes_read.times count).good_of_eq haddresses).1
  refine ⟨?_, hlength.trans_le (takes_vectorLength.good_of_eq hcount)⟩
  simp only [AddressList.encodedLength]
  omega

namespace Message

theorem payload_of_readFields {tag : UInt32} {s t : Bytes} {m : Message}
    (h : readFields tag s = (.ok m, t)) : m.payload.length < lengthLimit := by
  have hnone : ([] : Bytes).length < lengthLimit := by decide
  unfold readFields at h
  split_ifs at h
  rotate_right
  · cases h
  all_goals simp only [bind_eq_ok, pure_eq_ok] at h
  · obtain ⟨_, _, -, _, _, -, rfl, -⟩ := h
    exact hnone
  · obtain ⟨_, _, -, _, _, -, _, _, -, rfl, -⟩ := h
    exact hnone
  · obtain ⟨data, _, hdata, rfl, -⟩ := h
    exact (takes_byteString hdata).2
  · obtain ⟨rfl, -⟩ := h
    exact hnone
  · obtain ⟨_, _, -, rfl, -⟩ := h
    exact hnone
  · obtain ⟨_, _, -, data, _, hdata, rfl, -⟩ := h
    exact (takes_byteString hdata).2
  · obtain ⟨_, _, -, data, _, hdata, rfl, -⟩ := h
    exact (takes_byteString hdata).2
  · obtain ⟨_, _, -, _, _, -, _, _, -, data, _, hdata, rfl, -⟩ := h
    exact (takes_byteString hdata).2

theorem takes_read : Message.read.Takes encodedLength fun m => m.payload.length < lengthLimit := by
  intro s t m h
  obtain ⟨tag, u, htag, hfields⟩ := bind_eq_ok.1 h
  have h0 := takes_u32.length_eq htag
  have h1 := length_of_readFields hfields
  refine ⟨?_, payload_of_readFields hfields⟩
  rw [encodedLength]
  omega

end Message

namespace Flags

/-- The marks, a bit each. -/
def marks : List UInt32 :=
  [sender, senderId, message, messages, address, priorityAddress, seqno, confirmSeqno, knownVersion,
    knownPriorityVersion, reinitDates, signature, priority]

theorem has_eq_testBit (f : Flags) {mask : UInt32} {i : Nat} (hmask : mask.toNat = Nat.pow 2 i) :
    f.has mask = f.word.toNat.testBit i := by
  have hand : (f.word &&& mask).toNat = (f.word.toNat.testBit i).toNat * 2 ^ i := by
    rw [UInt32.toNat_and, hmask]
    exact Nat.and_two_pow _ i
  rw [has, Bool.eq_iff_iff, bne_iff_ne, ne_eq, ← UInt32.toNat_inj, hand]
  cases f.word.toNat.testBit i <;> simp

theorem lt_of_hasReserved {f : Flags} (h : f.hasReserved = false) : f.word.toNat < Nat.pow 2 13 := by
  have hword : f.word &&& ~~~defined = 0 := by simpa [hasReserved] using h
  apply Nat.lt_pow_two_of_testBit
  intro i hi
  by_contra hbit
  have hlt : i < 32 := by
    by_contra hlarge
    have hsmall : f.word.toNat < 2 ^ i :=
      f.word.toNat_lt.trans_le (Nat.pow_le_pow_right (by decide) (Nat.le_of_not_lt hlarge))
    exact hbit (Nat.testBit_lt_two_pow hsmall)
  have hmask : (~~~defined).toNat.testBit i = true := by
    interval_cases i <;> decide
  have hzero := congrArg (fun w : UInt32 => w.toNat.testBit i) hword
  simp only [UInt32.toNat_and, Nat.testBit_and, hmask, Bool.and_true] at hzero
  exact hbit (hzero.trans (Nat.zero_testBit i))

theorem eq_of_has {f g : Flags} (hf : f.hasReserved = false) (hg : g.hasReserved = false)
    (h : ∀ mask ∈ marks, f.has mask = g.has mask) : f = g := by
  have hbits : ∀ i < 13, f.word.toNat.testBit i = g.word.toNat.testBit i := by
    intro i hi
    have hmask : (marks.get ⟨i, hi⟩).toNat = Nat.pow 2 i := by
      interval_cases i <;> rfl
    rw [← has_eq_testBit f hmask, ← has_eq_testBit g hmask]
    exact h _ (List.get_mem marks ⟨i, hi⟩)
  have hword : f.word.toNat = g.word.toNat := by
    apply Nat.eq_of_testBit_eq
    intro i
    by_cases hi : i < 13
    · exact hbits i hi
    · have hpow : Nat.pow 2 13 ≤ 2 ^ i := Nat.pow_le_pow_right (by decide) (Nat.le_of_not_lt hi)
      rw [Nat.testBit_lt_two_pow ((lt_of_hasReserved hf).trans_le hpow),
        Nat.testBit_lt_two_pow ((lt_of_hasReserved hg).trans_le hpow)]
  exact congrArg Flags.mk (UInt32.toNat_inj.1 hword)

end Flags

theorem PublicKey.takes_read : PublicKey.read.Takes (fun _ => 36) fun _ => True := by
  intro s t key h
  obtain ⟨_, u, htag, h⟩ := bind_eq_ok.1 h
  obtain ⟨bytes, v, hbytes, h⟩ := bind_eq_ok.1 h
  obtain ⟨rfl, rfl⟩ := pure_eq_ok.1 h
  have h0 := (takes_tag PublicKey.tag).length_eq htag
  have h1 := (takes_vector 32).length_eq hbytes
  refine ⟨?_, trivial⟩
  dsimp only
  omega

theorem ShortId.takes_read :
    Takes (do return ⟨← vector 32⟩ : Reader ShortId) (fun _ => 32) fun _ => True :=
  (takes_vector 32).map (fun _ => rfl) fun _ _ => trivial

theorem ReinitDates.takes_read : ReinitDates.read.Takes (fun _ => 8) fun _ => True := by
  intro s t d h
  obtain ⟨own, u, hown, h⟩ := bind_eq_ok.1 h
  obtain ⟨receiver, v, hreceiver, h⟩ := bind_eq_ok.1 h
  obtain ⟨rfl, rfl⟩ := pure_eq_ok.1 h
  have h0 := takes_i32.length_eq hown
  have h1 := takes_i32.length_eq hreceiver
  refine ⟨?_, trivial⟩
  dsimp only
  omega

namespace Packet

theorem takes_readMessages : readMessages.Takes messageListLength
    fun ms => ms.length ≤ maxVectorLength ∧ ∀ m ∈ ms, m.payload.length < lengthLimit := by
  intro s t ms h
  obtain ⟨count, u, hcount, hms⟩ := bind_eq_ok.1 h
  have h0 := takes_vectorLength.length_eq hcount
  have h1 := (Message.takes_read.times count).length_eq hms
  obtain ⟨hlength, hpayload⟩ := (Message.takes_read.times count).good_of_eq hms
  refine ⟨?_, hlength.trans_le (takes_vectorLength.good_of_eq hcount), hpayload⟩
  rw [messageListLength]
  omega

/-- Flags that are read are the next word, have no reserved bit and one message field at most. -/
theorem readFlags_eq_ok {s t : Bytes} {f : Flags} (h : readFlags s = (.ok f, t)) :
    u32 s = (.ok f.word, t) ∧ f.hasReserved = false ∧
      ¬ (f.has Flags.message ∧ f.has Flags.messages) := by
  have hone := oneField_of_readFlags h
  obtain ⟨word, u, hword, hf⟩ := bind_eq_ok.1 h
  change (if (Flags.mk word).hasReserved then Reader.fail _ else
    if (Flags.mk word).has Flags.message && (Flags.mk word).has Flags.messages then Reader.fail _
    else pure (Flags.mk word) : Reader Flags) u = _ at hf
  split_ifs at hf with hreserved
  · cases hf
  · cases hf
  · obtain ⟨rfl, rfl⟩ := pure_eq_ok.1 hf
    exact ⟨hword, Bool.eq_false_iff.2 hreserved, hone⟩

theorem takes_readSender (f : Flags) : (readSender f).Takes
    (fun o => fieldLength (fun _ => 36) o.1 + fieldLength (fun _ => 32) o.2)
    fun o => o.1.isSome = f.has Flags.sender ∧ o.2.isSome = f.has Flags.senderId ∧
      ∀ key id, o.1 = some key → o.2 = some id → key.shortId = id := by
  intro s t o h
  obtain ⟨sender, u, hsender, h⟩ := bind_eq_ok.1 h
  obtain ⟨senderId, v, hid, h⟩ := bind_eq_ok.1 h
  have takes_key := PublicKey.takes_read.optional (f.has Flags.sender)
  have takes_id := ShortId.takes_read.optional (f.has Flags.senderId)
  have h0 := takes_key.length_eq hsender
  have h1 := takes_id.length_eq hid
  have hgiven : (sender, senderId) = o ∧ v = t ∧
      ∀ key id, sender = some key → senderId = some id → key.shortId = id := by
    split at h
    · rename_i key id
      split_ifs at h with hagree
      · obtain ⟨rfl, rfl⟩ := pure_eq_ok.1 h
        refine ⟨rfl, rfl, ?_⟩
        rintro _ _ ⟨⟩ ⟨⟩
        exact hagree
      · cases h
    · rename_i hnot
      obtain ⟨rfl, rfl⟩ := pure_eq_ok.1 h
      exact ⟨rfl, rfl, fun key id hk hi => absurd hi (hnot key id hk)⟩
  obtain ⟨rfl, rfl, hagree⟩ := hgiven
  refine ⟨?_, (takes_key.good_of_eq hsender).1, (takes_id.good_of_eq hid).1, hagree⟩
  dsimp only
  omega

/-- The marks of a packet are its fields, so flags that agree with the fields are its flags. -/
theorem eq_flags {f : Flags} {p : Packet} (h : f.hasReserved = false)
    (hmarks : Flags.marks.map f.has = [p.sender.isSome, p.senderId.isSome, p.message.isSome,
      p.messages.isSome, p.address.isSome, p.priorityAddress.isSome, p.seqno.isSome,
      p.confirmSeqno.isSome, p.knownVersion.isSome, p.knownPriorityVersion.isSome,
      p.reinitDates.isSome, p.signature.isSome, p.priority]) : f = p.flags := by
  have hown : p.flags.hasReserved = false := by
    change p.flags.has (~~~Flags.defined) = false
    simp +decide [has_flags]
  refine Flags.eq_of_has h hown (List.map_inj_left.1 (hmarks.trans ?_))
  simp +decide [Flags.marks, has_flags]

def readWord : Reader UInt32 := do
  Reader.tag tag
  let _ ← byteString
  u32

theorem read_eq_ok {s t : Bytes} {p : Packet} (h : read s = (.ok p, t)) :
    s.length = t.length + p.encode.length ∧ p.WellFormed ∧ (readWord s).1 = .ok p.flags.word := by
  obtain ⟨_, s0, h0, h⟩ := bind_eq_ok.1 h
  obtain ⟨rand1, s1, h1, h⟩ := bind_eq_ok.1 h
  obtain ⟨f, s2, h2, h⟩ := bind_eq_ok.1 h
  obtain ⟨⟨sender, senderId⟩, s3, h3, h⟩ := bind_eq_ok.1 h
  obtain ⟨message, s4, h4, h⟩ := bind_eq_ok.1 h
  obtain ⟨messages, s5, h5, h⟩ := bind_eq_ok.1 h
  obtain ⟨address, s6, h6, h⟩ := bind_eq_ok.1 h
  obtain ⟨priorityAddress, s7, h7, h⟩ := bind_eq_ok.1 h
  obtain ⟨seqno, s8, h8, h⟩ := bind_eq_ok.1 h
  obtain ⟨confirmSeqno, s9, h9, h⟩ := bind_eq_ok.1 h
  obtain ⟨knownVersion, s10, h10, h⟩ := bind_eq_ok.1 h
  obtain ⟨knownPriorityVersion, s11, h11, h⟩ := bind_eq_ok.1 h
  obtain ⟨reinitDates, s12, h12, h⟩ := bind_eq_ok.1 h
  obtain ⟨signature, s13, h13, h⟩ := bind_eq_ok.1 h
  obtain ⟨rand2, s14, h14, h⟩ := bind_eq_ok.1 h
  obtain ⟨rfl, rfl⟩ := pure_eq_ok.1 h
  obtain ⟨hword, hreserved, hone⟩ := readFlags_eq_ok h2
  obtain ⟨l3, hsender, hsenderId, hagree⟩ := takes_readSender f h3
  obtain ⟨l4, hmessage, hpayload⟩ := Message.takes_read.optional _ h4
  obtain ⟨l5, hmessages, hlist⟩ := takes_readMessages.optional _ h5
  obtain ⟨l6, haddress, hfirst⟩ := AddressList.takes_read.optional _ h6
  obtain ⟨l7, hpriority, hsecond⟩ := AddressList.takes_read.optional _ h7
  obtain ⟨l8, hseqno, -⟩ := takes_u64.optional _ h8
  obtain ⟨l9, hconfirm, -⟩ := takes_u64.optional _ h9
  obtain ⟨l10, hknown, -⟩ := takes_i32.optional _ h10
  obtain ⟨l11, hknownPriority, -⟩ := takes_i32.optional _ h11
  obtain ⟨l12, hdates, -⟩ := ReinitDates.takes_read.optional _ h12
  obtain ⟨l13, hsignature, hsmall⟩ := takes_byteString.optional _ h13
  have l0 := (takes_tag tag).length_eq h0
  have l1 := takes_byteString.length_eq h1
  have l2 := takes_u32.length_eq hword
  have l14 := takes_byteString.length_eq h14
  refine ⟨?_, ?_, ?_⟩
  · rw [length_encode]
    simp only [headerLength, messagesLength] at l3 ⊢
    omega
  · exact
      { oneField := by
          rw [← hmessage, ← hmessages] at hone
          cases message with
          | none => exact .inl rfl
          | some _ =>
            cases messages with
            | none => exact .inr rfl
            | some _ => exact absurd ⟨rfl, rfl⟩ hone
        senderAgrees := hagree
        message := hpayload
        messages := hlist
        address := hfirst
        priorityAddress := hsecond
        signature := hsmall
        rand1 := takes_byteString.good_of_eq h1
        rand2 := takes_byteString.good_of_eq h14 }
  · have hflags := eq_flags (p := ⟨rand1, sender, senderId, message, messages, address,
      priorityAddress, seqno, confirmSeqno, knownVersion, knownPriorityVersion, reinitDates,
      signature, f.has Flags.priority, rand2⟩) hreserved (by
        simp only [Flags.marks, List.map_cons, List.map_nil, hsender, hsenderId, hmessage,
          hmessages, haddress, hpriority, hseqno, hconfirm, hknown, hknownPriority, hdates,
          hsignature])
    rw [← hflags]
    have hread : readWord s = (.ok f.word, s2) :=
      bind_eq_ok.2 ⟨(), s0, h0, bind_eq_ok.2 ⟨rand1, s1, h1, hword⟩⟩
    rw [hread]

/-- What is accepted is well formed and has the flags that were read. It is encoded to data of the
same size, and that is accepted as the same packet. -/
theorem decode_stable {data : Bytes} {p : Packet} (h : decode data = .ok p) :
    p.WellFormed ∧ (readWord data).1 = .ok p.flags.word ∧ p.encode.length = data.length ∧
      decode p.encode = .ok p := by
  obtain ⟨hlength, hwell, hword⟩ := read_eq_ok (of_whole h)
  refine ⟨hwell, hword, ?_, whole_of_reads (reads hwell)⟩
  rw [List.length_nil] at hlength
  omega

/-- A packet that no encoder writes: its first padding has the long form and lies in the flags, and
nothing is padded with zeros. -/
def loose : Bytes :=
  [0x89, 0xcd, 0x42, 0xd1, 254, 3, 0, 0, 0x08, 0x18, 0, 0, 1, 0, 0, 0, 0xf5, 0x18, 0x48, 0x20,
    2, 65, 66, 99, 0, 1, 2, 3, 2, 7, 8, 9]

def tightened : Packet where
  rand1 := [0x08, 0x18, 0]
  messages := some [.custom [65, 66]]
  signature := some []
  priority := true
  rand2 := [7, 8]

theorem decode_stable_loose :
    decode loose = .ok tightened ∧ tightened.encode ≠ loose ∧ tightened.WellFormed ∧
      (readWord loose).1 = .ok tightened.flags.word ∧ tightened.encode.length = loose.length ∧
      decode tightened.encode = .ok tightened := by
  have h : decode loose = .ok tightened := by decide
  exact ⟨h, by decide, decode_stable h⟩

end Packet

end Adnl
