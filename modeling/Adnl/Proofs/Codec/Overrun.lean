import Adnl.Packet.Codec
import Adnl.Proofs.Codec.Range

/-! # Where packets and messages run out of range

A message has one byte string at most, at a place that its constructor id tells. A packet has its
two paddings, its signature and what its messages have. Everything else is read safely.
-/
namespace Adnl

namespace Message
open Reader

/-- How far behind its constructor id a message has a byte string, if it has one. -/
def payloadOffset? (tag : UInt32) : Option Nat :=
  if tag = customTag then some 0
  else if tag = queryTag ∨ tag = answerTag then some 32
  else if tag = partTag then some (32 + 4 + 4)
  else none

/-- Reading a message comes to a byte string here. -/
def ComesTo (data s : Bytes) : Prop :=
  ∃ tag fields offset, u32 data = (.ok tag, fields) ∧ payloadOffset? tag = some offset ∧
    offset ≤ fields.length ∧ s = fields.drop offset

theorem outOfRange_payload (f : Bytes → Message) (s : Bytes) :
    OutOfRange (byteString >>= fun data => pure (f data)) s ↔ Overruns s :=
  (outOfRange_bind_safe fun data => safe_pure (f data)).trans outOfRange_byteString

theorem outOfRange_identified (f : Bytes32 → Bytes → Message) (s : Bytes) :
    OutOfRange (vector 32 >>= fun id => byteString >>= fun data => pure (f id data)) s ↔
      32 ≤ s.length ∧ Overruns (s.drop 32) :=
  (skips_vector 32).outOfRange_bind (fun id => outOfRange_payload (f id)) s

theorem outOfRange_part (s : Bytes) :
    OutOfRange (vector 32 >>= fun hash => i32 >>= fun totalSize => i32 >>= fun offset =>
        byteString >>= fun data => pure (part hash totalSize offset data)) s ↔
      32 + 4 + 4 ≤ s.length ∧ Overruns (s.drop (32 + 4 + 4)) := by
  rw [(skips_vector 32).outOfRange_bind fun hash => skips_i32.outOfRange_bind fun totalSize =>
    skips_i32.outOfRange_bind fun offset => outOfRange_payload (part hash totalSize offset)]
  simp only [List.length_drop, List.drop_drop]
  constructor
  · rintro ⟨h1, h2, h3, h⟩
    exact ⟨by omega, h⟩
  · rintro ⟨h1, h⟩
    exact ⟨by omega, by omega, by omega, h⟩

theorem outOfRange_readFields (tag : UInt32) (s : Bytes) : (readFields tag).OutOfRange s ↔
    ∃ offset, payloadOffset? tag = some offset ∧ offset ≤ s.length ∧ Overruns (s.drop offset) := by
  have hnone {r : Reader Message} (hr : r.Safe) (h : payloadOffset? tag = none) :
      r.OutOfRange s ↔ ∃ offset, payloadOffset? tag = some offset ∧ offset ≤ s.length ∧
        Overruns (s.drop offset) :=
    iff_of_false (hr s) (by simp [h])
  have hsome {r : Reader Message} {n : Nat} (hr : r.OutOfRange s ↔ n ≤ s.length ∧
      Overruns (s.drop n)) (h : payloadOffset? tag = some n) :
      r.OutOfRange s ↔ ∃ offset, payloadOffset? tag = some offset ∧ offset ≤ s.length ∧
        Overruns (s.drop offset) := by
    simpa [h] using hr
  unfold readFields
  split_ifs with hcreate hconfirm hcustom hnop hreinit hquery hanswer hpart
  · exact hnone ((safe_vector 32).bind fun _ => safe_i32.map _) (hcreate ▸ rfl)
  · exact hnone ((safe_vector 32).bind fun _ => (safe_vector 32).bind fun _ => safe_i32.map _)
      (hconfirm ▸ rfl)
  · exact hsome (n := 0) (by simpa using outOfRange_payload custom s) (hcustom ▸ rfl)
  · exact hnone (safe_pure nop) (hnop ▸ rfl)
  · exact hnone (safe_i32.map _) (hreinit ▸ rfl)
  · exact hsome (outOfRange_identified query s) (hquery ▸ rfl)
  · exact hsome (outOfRange_identified answer s) (hanswer ▸ rfl)
  · exact hsome (outOfRange_part s) (hpart ▸ rfl)
  · exact hnone (safe_fail _) (by simp [payloadOffset?, hcustom, hquery, hanswer, hpart])

theorem outOfRange_read {data : Bytes} :
    read.OutOfRange data ↔ ∃ s, ComesTo data s ∧ Overruns s := by
  refine safe_u32.outOfRange_bind.trans ?_
  simp only [outOfRange_readFields, ComesTo]
  constructor
  · rintro ⟨tag, fields, htag, offset, hoffset, hle, h⟩
    exact ⟨fields.drop offset, ⟨tag, fields, offset, htag, hoffset, hle, rfl⟩, h⟩
  · rintro ⟨_, ⟨tag, fields, offset, htag, hoffset, hle, rfl⟩, h⟩
    exact ⟨tag, fields, htag, offset, hoffset, hle, h⟩

end Message

section
open Reader

theorem Address.safe_read : Address.read.Safe := by
  have hport : Address.readPort.Safe := safe_i32.bind fun port => by
    split_ifs
    · exact safe_pure _
    · exact safe_fail _
  refine safe_u32.bind fun tag => ?_
  split_ifs
  · exact safe_u32.bind fun octets => hport.map _
  · exact (safe_vector 16).bind fun octets => hport.map _
  · exact safe_fail _

theorem AddressList.safe_read : AddressList.read.Safe :=
  safe_vectorLength.bind fun count => (Address.safe_read.times count).bind fun _ =>
    safe_i32.bind fun _ => safe_i32.bind fun _ => safe_i32.bind fun _ => safe_i32.map _

theorem PublicKey.safe_read : PublicKey.read.Safe :=
  (safe_tag PublicKey.tag).bind fun _ => (safe_vector 32).map _

theorem ReinitDates.safe_read : ReinitDates.read.Safe :=
  safe_i32.bind fun _ => safe_i32.map _

namespace Packet

/-- Reads the fields in front of the messages; gives the flags. -/
def readFront : Reader Flags := do
  Reader.tag tag
  let _ ← byteString
  let f ← readFlags
  let _ ← readSender f
  return f

def readBody : Reader Flags := do
  let f ← readFront
  let _ ← optional (f.has Flags.message) Message.read
  let _ ← optional (f.has Flags.messages) readMessages
  let _ ← optional (f.has Flags.address) AddressList.read
  let _ ← optional (f.has Flags.priorityAddress) AddressList.read
  let _ ← optional (f.has Flags.seqno) u64
  let _ ← optional (f.has Flags.confirmSeqno) u64
  let _ ← optional (f.has Flags.knownVersion) i32
  let _ ← optional (f.has Flags.knownPriorityVersion) i32
  let _ ← optional (f.has Flags.reinitDates) ReinitDates.read
  return f

/-- Reading a packet comes to a byte string here: the fields before it are read and its own field is
there. -/
inductive ComesTo (data : Bytes) : Bytes → Prop
  | firstPadding {s : Bytes} (h : Reader.tag tag data = (.ok (), s)) : ComesTo data s
  | message {f : Flags} {t s : Bytes} (hfront : readFront data = (.ok f, t))
    (hf : f.has Flags.message) (h : Message.ComesTo t s) : ComesTo data s
  | messages {f : Flags} {t u v s : Bytes} {n j : Nat} {ms : List Message}
    (hfront : readFront data = (.ok f, t)) (hf : f.has Flags.messages)
    (hn : vectorLength t = (.ok n, u)) (hj : j < n) (hms : times Message.read j u = (.ok ms, v))
    (h : Message.ComesTo v s) : ComesTo data s
  | signature {f : Flags} {s : Bytes} (hbody : readBody data = (.ok f, s))
    (hf : f.has Flags.signature) : ComesTo data s
  | lastPadding {f : Flags} {t s : Bytes} {signature : Option Bytes}
    (hbody : readBody data = (.ok f, t))
    (h : optional (f.has Flags.signature) byteString t = (.ok signature, s)) : ComesTo data s

theorem safe_readFlags : readFlags.Safe := by
  refine safe_u32.bind fun word => ?_
  change Safe (if (Flags.mk word).hasReserved then _ else if _ then _ else _)
  split_ifs
  · exact safe_fail _
  · exact safe_fail _
  · exact safe_pure _

theorem safe_readSender (f : Flags) : (readSender f).Safe := by
  refine (PublicKey.safe_read.optional _).bind fun sender => ?_
  refine (((safe_vector 32).map _).optional _).bind fun senderId => ?_
  split
  · split_ifs
    · exact safe_pure _
    · exact safe_fail _
  · exact safe_pure _

theorem oneField_of_readFlags {f : Flags} {s t : Bytes} (h : readFlags s = (.ok f, t)) :
    ¬ (f.has Flags.message ∧ f.has Flags.messages) := by
  obtain ⟨word, u, -, hf⟩ := bind_eq_ok.1 h
  change (if (Flags.mk word).hasReserved then Reader.fail _ else
    if (Flags.mk word).has Flags.message && (Flags.mk word).has Flags.messages then Reader.fail _
    else pure (Flags.mk word) : Reader Flags) u = _ at hf
  split_ifs at hf with hr hb
  · cases hf
  · cases hf
  · obtain ⟨rfl, -⟩ := pure_eq_ok.1 hf
    simpa using hb

theorem oneField_of_readFront {data t : Bytes} {f : Flags} (h : readFront data = (.ok f, t)) :
    ¬ (f.has Flags.message ∧ f.has Flags.messages) := by
  obtain ⟨_, _, -, h⟩ := bind_eq_ok.1 h
  obtain ⟨_, _, -, h⟩ := bind_eq_ok.1 h
  obtain ⟨g, _, hflags, h⟩ := bind_eq_ok.1 h
  obtain ⟨_, _, -, h⟩ := bind_eq_ok.1 h
  obtain ⟨rfl, -⟩ := pure_eq_ok.1 h
  exact oneField_of_readFlags hflags

/-- Apart from the values, a packet is its body, its signature and its last padding. -/
theorem discard_read : (read >>= fun _ => pure ()) = (do
    let f ← readBody
    let _ ← optional (f.has Flags.signature) byteString
    let _ ← byteString
    return () : Reader Unit) := by
  simp only [read, readBody, readFront, Reader.bind_assoc, pure_bind]

theorem outOfRange_readFront {data : Bytes} : readFront.OutOfRange data ↔
    ∃ s, Reader.tag tag data = (.ok (), s) ∧ Overruns s := by
  have hrest (u : Unit) (s : Bytes) : OutOfRange (byteString >>= fun _ => readFlags >>= fun f =>
      readSender f >>= fun _ => pure f) s ↔ Overruns s :=
    (outOfRange_bind_safe fun _ => safe_readFlags.bind fun f => (safe_readSender f).map _).trans
      outOfRange_byteString
  refine (safe_tag tag).outOfRange_bind.trans ?_
  exact ⟨fun ⟨_, s, hs, h⟩ => ⟨s, hs, (hrest () s).1 h⟩,
    fun ⟨s, hs, h⟩ => ⟨(), s, hs, (hrest () s).2 h⟩⟩

theorem outOfRange_readMessages {s : Bytes} : readMessages.OutOfRange s ↔
    ∃ n t, vectorLength s = (.ok n, t) ∧ ∃ j < n, ∃ ms u, times Message.read j t = (.ok ms, u) ∧
      Message.read.OutOfRange u := by
  refine safe_vectorLength.outOfRange_bind.trans ?_
  simp only [outOfRange_times]

/-- Of the two message fields, only the one that is there counts. -/
theorem outOfRange_readBody {data : Bytes} : readBody.OutOfRange data ↔
    readFront.OutOfRange data ∨ ∃ f t, readFront data = (.ok f, t) ∧
      (f.has Flags.message ∧ Message.read.OutOfRange t ∨
        f.has Flags.messages ∧ readMessages.OutOfRange t) := by
  refine outOfRange_bind.trans (or_congr_right ?_)
  refine exists_congr fun f => exists_congr fun t => and_congr_right fun hfront => ?_
  have hone := oneField_of_readFront hfront
  refine outOfRange_bind.trans (or_congr outOfRange_optional ?_)
  have hrest (s : Bytes) := outOfRange_bind_safe (r := optional (f.has Flags.messages) readMessages)
    (s := s) fun _ => (AddressList.safe_read.optional (f.has Flags.address)).bind fun _ =>
      (AddressList.safe_read.optional (f.has Flags.priorityAddress)).bind fun _ =>
      (safe_u64.optional (f.has Flags.seqno)).bind fun _ =>
      (safe_u64.optional (f.has Flags.confirmSeqno)).bind fun _ =>
      (safe_i32.optional (f.has Flags.knownVersion)).bind fun _ =>
      (safe_i32.optional (f.has Flags.knownPriorityVersion)).bind fun _ =>
      (ReinitDates.safe_read.optional (f.has Flags.reinitDates)).map fun _ => f
  simp only [hrest, outOfRange_optional]
  constructor
  · rintro ⟨_, u, hm, hf, h⟩
    have hnone : f.has Flags.message = false := by simpa [hf] using hone
    rw [hnone] at hm
    obtain ⟨-, rfl⟩ := pure_eq_ok.1 hm
    exact ⟨hf, h⟩
  · rintro ⟨hf, h⟩
    have hnone : f.has Flags.message = false := by simpa [hf] using hone
    exact ⟨none, t, by rw [hnone]; rfl, hf, h⟩

theorem outOfRange_read {data : Bytes} :
    read.OutOfRange data ↔ ∃ s, ComesTo data s ∧ Overruns s := by
  have hdiscard := outOfRange_bind_safe (r := read) (s := data) fun _ => safe_pure ()
  have hlast (f : Flags) (s : Bytes) : OutOfRange (optional (f.has Flags.signature) byteString >>=
      fun _ => byteString >>= fun _ => pure ()) s ↔
        f.has Flags.signature ∧ Overruns s ∨ ∃ signature t,
          optional (f.has Flags.signature) byteString s = (.ok signature, t) ∧ Overruns t := by
    have hpadding (t : Bytes) : OutOfRange (byteString >>= fun _ => pure ()) t ↔ Overruns t :=
      (outOfRange_bind_safe fun _ => safe_pure ()).trans outOfRange_byteString
    simp only [outOfRange_bind (r := optional _ _), outOfRange_optional, outOfRange_byteString,
      hpadding]
  rw [← hdiscard, discard_read, outOfRange_bind]
  simp only [hlast, outOfRange_readBody, outOfRange_readFront, outOfRange_readMessages,
    Message.outOfRange_read]
  constructor
  · rintro ((⟨s, h, hs⟩ |
        ⟨f, t, hfront, ⟨hf, s, h, hs⟩ | ⟨hf, n, u, hn, j, hj, ms, v, hms, s, h, hs⟩⟩) |
      ⟨f, t, hbody, ⟨hf, hs⟩ | ⟨signature, s, h, hs⟩⟩)
    · exact ⟨s, .firstPadding h, hs⟩
    · exact ⟨s, .message hfront hf h, hs⟩
    · exact ⟨s, .messages hfront hf hn hj hms h, hs⟩
    · exact ⟨t, .signature hbody hf, hs⟩
    · exact ⟨s, .lastPadding hbody h, hs⟩
  · rintro ⟨s, hcomes, hs⟩
    cases hcomes with
    | firstPadding h => exact .inl (.inl ⟨s, h, hs⟩)
    | message hfront hf h => exact .inl (.inr ⟨_, _, hfront, .inl ⟨hf, s, h, hs⟩⟩)
    | messages hfront hf hn hj hms h =>
      exact .inl (.inr ⟨_, _, hfront, .inr ⟨hf, _, _, hn, _, hj, _, _, hms, s, h, hs⟩⟩)
    | signature hbody hf => exact .inr ⟨_, _, hbody, .inl ⟨hf, hs⟩⟩
    | lastPadding hbody h => exact .inr ⟨_, _, hbody, .inr ⟨_, s, h, hs⟩⟩

end Packet

/-- Reading a packet or a message runs out of range exactly when it comes to a byte string with a
short length in the long form that the rest of the data is too short for. A byte string that is read
lies in the data consumed, unless its length is in that form and no multiple of four. -/
theorem outOfRange_iff (data : Bytes) :
    (Packet.decode data = .error .outOfRange ↔ ∃ s, Packet.ComesTo data s ∧ Overruns s) ∧
      (Message.decode data = .error .outOfRange ↔ ∃ s, Message.ComesTo data s ∧ Overruns s) ∧
      ∀ b rest, byteString data = (.ok b, rest) →
        rest = data.drop (data.length - rest.length) ∧
          b = Bytes.slice data (headerLength data) b.length ∧
          (headerLength data + b.length ≤ data.length - rest.length ↔ ¬ Misaligned data) :=
  ⟨whole_eq_outOfRange.trans Packet.outOfRange_read,
    whole_eq_outOfRange.trans Message.outOfRange_read, fun _ _ => byteString_eq_ok⟩

/-- A packet and a message that run out of range, and a byte string that is found behind what is
consumed for it. -/
theorem decode_overlong :
    Packet.decode [0x89, 0xcd, 0x42, 0xd1, 254, 3, 0, 0] = .error .outOfRange ∧
      Message.decode [0xf5, 0x18, 0x48, 0x20, 254, 3, 0, 0] = .error .outOfRange ∧
      byteString [254, 1, 0, 0, 65, 66, 67, 68] = (.ok [65], [65, 66, 67, 68]) := by
  decide

end

end Adnl
