import Adnl.Proofs.Codec.RoundTrip

/-! # Where an encoding ends

An encoding itself says where it ends. Cut short anywhere, it is refused because there is too little
data; with anything behind it, because that is left over. So of two different values neither has an
encoding that the other one's begins with.
-/
namespace Adnl

namespace Reader

/-- These bytes are refused when they are cut short and when something follows them. -/
structure Delimited {α : Type} (decode : Bytes → Except Failure α) (b : Bytes) : Prop where
  cut : ∀ s, s <+: b → s ≠ b → ∃ fault, decode s = .error (.refused (.tl fault))
  followed : ∀ s, s ≠ [] → decode (b ++ s) = .error (.refused (.tl (.trailing s.length)))

section
variable {α : Type} {r : Reader α} {b c s : Bytes} {a x : α}

theorem whole_of_lacks (h : r.Lacks s) : ∃ fault, whole r s = .error (.refused (.tl fault)) := by
  obtain ⟨fault, t, ht⟩ := h.bind fun a => finish >>= fun _ => pure a
  exact ⟨fault, congrArg Prod.fst ht⟩

/-- Once the value has been read, what follows it is too much. -/
theorem Reads.trailing (hr : r.Reads b a) (hs : s ≠ []) :
    whole r (b ++ s) = .error (.refused (.tl (.trailing s.length))) := by
  have hfinish : finish s = fail (.tl (.trailing s.length)) s := if_neg hs
  change (andThen r (fun a => andThen finish fun _ => pure a) (b ++ s)).1 = _
  simp only [andThen, hr.all s, hfinish, fail]

theorem Reads.delimited (hr : r.Reads b a) : Delimited (whole r) b where
  cut s hs hne := whole_of_lacks (hr.part s hs hne)
  followed _ hs := hr.trailing hs

/-- What one value is read off begins with what the other one is read off only if both are the
same. -/
theorem Reads.eq_of_begins (hb : r.Reads b a) (hc : r.Reads c x) (h : b <+: c) : a = x := by
  obtain ⟨rest, rfl⟩ := h
  have hread := hc.all []
  rw [List.append_nil, hb.all rest] at hread
  exact Except.ok.inj (Prod.mk.inj hread).1

end

end Reader

open Reader

/-- The encodings of well-formed packets, and of messages whose byte string can be written, are
refused cut short and with something behind them, and none begins with another one's. -/
theorem encode_delimited :
    (∀ p : Packet, p.WellFormed → Delimited Packet.decode p.encode) ∧
      (∀ m : Message, m.payload.length < lengthLimit → Delimited Message.decode m.encode) ∧
      (∀ p q : Packet, p.WellFormed → q.WellFormed → p.encode <+: q.encode → p = q) ∧
      ∀ m n : Message, m.payload.length < lengthLimit → n.payload.length < lengthLimit →
        m.encode <+: n.encode → m = n := by
  refine ⟨fun p hp => ?_, fun m hm => ?_, fun p q hp hq h => ?_, fun m n hm hn h => ?_⟩
  · exact (Packet.reads hp).delimited
  · exact (Message.reads hm).delimited
  · exact (Packet.reads hp).eq_of_begins (Packet.reads hq) h
  · exact (Message.reads hm).eq_of_begins (Message.reads hn) h

/-- A packet with two messages, one of which has its length in the long form. -/
def Packet.paired : Packet where
  rand1 := [1, 2, 3]
  messages := some [.nop, .custom (List.replicate 254 4)]
  signature := some [5]

theorem Packet.wellFormed_paired : paired.WellFormed where
  oneField := .inl rfl
  senderAgrees := nofun
  message := nofun
  messages := by
    rintro _ ⟨⟩
    simp only [List.mem_cons, List.not_mem_nil, or_false, forall_eq_or_imp, forall_eq,
      Message.payload, List.length_replicate]
    decide
  address := nofun
  priorityAddress := nofun
  signature := by rintro _ ⟨⟩; decide
  rand1 := by decide
  rand2 := by decide

/-- The cut lies behind the mark of the long form, within the three bytes of length. -/
theorem encode_delimited_paired :
    Packet.paired.encode.take 26 = [0x89, 0xcd, 0x42, 0xd1, 3, 1, 2, 3, 8, 8, 0, 0, 2, 0, 0, 0,
        0xda, 0xdf, 0xf8, 0x17, 0xf5, 0x18, 0x48, 0x20, 254, 254] ∧
      (∃ fault, Packet.decode (Packet.paired.encode.take 26) = .error (.refused (.tl fault))) ∧
      Packet.decode (Packet.paired.encode ++ [6]) = .error (.refused (.tl (.trailing 1))) := by
  obtain ⟨hcut, hfollowed⟩ := encode_delimited.1 Packet.paired Packet.wellFormed_paired
  refine ⟨by decide +kernel, hcut _ (List.take_prefix 26 _) ?_, hfollowed [6] (by decide)⟩
  decide +kernel

end Adnl
