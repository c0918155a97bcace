import Adnl.Tl.Consumption
import Mathlib.Tactic

/-! # Reading back what was written

A reader reads a value off some bytes when, whatever follows them, it gives the value and leaves
exactly what follows, and when it finds too little wherever they are cut short. Readers in sequence
read what their encodings spell in sequence, so a record is read back field by field, and a cut in
any of its fields is noticed.
-/
namespace Adnl.Reader

/-- Byte strings are shorter than this, for their length to fit in three bytes. -/
def lengthLimit : Nat := 0x1000000

/-- The reader finds too little data. -/
def Lacks {α : Type} (r : Reader α) (s : Bytes) : Prop :=
  ∃ fault t, r s = (.error (.refused (.tl fault)), t)

/-- The reader takes exactly these bytes off whatever they stand in front of, and gives the
value. Where they are cut short, it finds too little. -/
structure Reads {α : Type} (r : Reader α) (b : Bytes) (a : α) : Prop where
  all : ∀ rest, r (b ++ rest) = (.ok a, rest)
  part : ∀ s, s <+: b → s ≠ b → r.Lacks s

section
variable {α β : Type} {r : Reader α} {b c s t : Bytes} {a : α}

theorem Lacks.bind (h : r.Lacks s) (f : α → Reader β) : Lacks (r >>= f) s := by
  obtain ⟨fault, t, ht⟩ := h
  refine ⟨fault, t, ?_⟩
  change andThen r f s = _
  rw [andThen, ht]

theorem lacks_bind {f : α → Reader β} (hr : r s = (.ok a, t)) (hf : (f a).Lacks t) :
    Lacks (r >>= f) s := by
  obtain ⟨fault, u, hu⟩ := hf
  refine ⟨fault, u, ?_⟩
  change andThen r f s = _
  simp only [andThen, hr]
  exact hu

theorem reads_pure (a : α) : Reads (pure a) [] a where
  all _ := rfl
  part _ hs hne := absurd (List.prefix_nil.1 hs) hne

theorem Reads.bind {f : α → Reader β} {x : β} (hr : r.Reads b a) (hf : (f a).Reads c x) :
    Reads (r >>= f) (b ++ c) x where
  all rest := by
    rw [List.append_assoc]
    exact bind_eq_ok.2 ⟨a, c ++ rest, hr.all (c ++ rest), hf.all rest⟩
  part s hs hne := by
    obtain hlt | hle := Nat.lt_or_ge s.length b.length
    · have hb : s <+: b := List.prefix_of_prefix_length_le hs (List.prefix_append b c) hlt.le
      exact (hr.part s hb fun heq => hlt.ne (congrArg List.length heq)).bind f
    · obtain ⟨t, rfl⟩ : b <+: s := List.prefix_of_prefix_length_le (List.prefix_append b c) hs hle
      have ht : t <+: c := (List.prefix_append_right_inj b).1 hs
      exact lacks_bind (hr.all t) (hf.part t ht fun heq => hne (heq ▸ rfl))

theorem Reads.check {f : α → Reader β} {x : β} (hr : r.Reads b a) (hf : (f a).Reads [] x) :
    Reads (r >>= f) b x := by
  have h := hr.bind hf
  rwa [List.append_nil] at h

theorem Reads.map (hr : r.Reads b a) (f : α → β) : Reads (r >>= fun a => pure (f a)) b (f a) :=
  hr.check (reads_pure (f a))

theorem whole_of_reads (hr : r.Reads b a) : whole r b = .ok a := by
  have hend : (do let a ← r; finish; return a : Reader α) (b ++ []) = (.ok a, []) :=
    bind_eq_ok.2 ⟨a, [], hr.all [], rfl⟩
  rw [List.append_nil] at hend
  rw [whole, hend]

end

theorem length_lt_of_cut {s b : Bytes} (hs : s <+: b) (hne : s ≠ b) : s.length < b.length :=
  Nat.lt_of_le_of_ne hs.length_le fun heq => hne (hs.eq_of_length heq)

theorem reads_raw (b : Bytes) : Reads (raw b.length) b b where
  all rest := by simp [raw]
  part s hs hne := ⟨_, s, if_pos (length_lt_of_cut hs hne)⟩

theorem reads_vector {n : Nat} (v : Vector UInt8 n) : Reads (vector n) v.toList v where
  all rest := by
    have hn : v.toList.length = n := by simp
    rw [vector, List.take_left' hn, List.drop_left' hn, Bytes.toVector?_toList]
  part s hs hne := by
    have hlt := length_lt_of_cut hs hne
    rw [Vector.length_toList] at hlt
    have hnone : Bytes.toVector? n (s.take n) = none := by
      rw [Bytes.toVector?, dif_neg]
      rw [List.length_take]
      omega
    exact ⟨.short n s.length, s, by rw [vector, hnone, fail]⟩

theorem reads_u32 (w : UInt32) : Reads u32 (Tl.u32 w) w := by
  have hw : UInt32.ofNat (Bytes.toNatLE (Tl.u32 w)) = w := by
    have := w.toNat_lt
    rw [Tl.u32, Bytes.toNatLE_ofNatLE, Nat.mod_eq_of_lt this, UInt32.ofNat_toNat]
  have h := (reads_raw (Tl.u32 w)).map fun b => UInt32.ofNat (Bytes.toNatLE b)
  rwa [Tl.length_u32, hw] at h

theorem reads_u64 (w : UInt64) : Reads u64 (Tl.u64 w) w := by
  have hw : UInt64.ofNat (Bytes.toNatLE (Tl.u64 w)) = w := by
    have := w.toNat_lt
    rw [Tl.u64, Bytes.toNatLE_ofNatLE, Nat.mod_eq_of_lt this, UInt64.ofNat_toNat]
  have h := (reads_raw (Tl.u64 w)).map fun b => UInt64.ofNat (Bytes.toNatLE b)
  rwa [Tl.length_u64, hw] at h

theorem reads_i32 (w : Int32) : Reads i32 (Tl.i32 w) w :=
  (reads_u32 w.toUInt32).map UInt32.toInt32

theorem reads_tag (w : UInt32) : Reads (tag w) (Tl.u32 w) () := by
  refine (reads_u32 w).check ?_
  rw [if_pos rfl]
  exact reads_pure ()

/-- The content is found behind its header and the padding is passed over. -/
theorem content_append (head data pad rest : Bytes)
    (h : head.length + data.length + pad.length = Tl.bytesLength data.length) :
    content head.length data.length (head ++ (data ++ (pad ++ rest))) = (.ok data, rest) := by
  have hlen : (head ++ (data ++ (pad ++ rest))).length =
      Tl.bytesLength data.length + rest.length := by
    simp only [List.length_append]
    omega
  have hdrop : (head ++ (data ++ (pad ++ rest))).drop (Tl.bytesLength data.length) = rest := by
    have hsize : (head ++ (data ++ pad)).length = Tl.bytesLength data.length := by
      simp only [List.length_append]
      omega
    have hassoc : head ++ (data ++ (pad ++ rest)) = head ++ (data ++ pad) ++ rest := by
      simp only [List.append_assoc]
    rw [hassoc, List.drop_left' hsize]
  have henough : ¬ (head ++ (data ++ (pad ++ rest))).length < Tl.bytesLength data.length := by
    omega
  have hinside : ¬ (head ++ (data ++ (pad ++ rest))).length < head.length + data.length := by
    omega
  rw [content]
  simp only [henough, hinside, if_false, hdrop, Bytes.slice, List.drop_left, List.take_left]

theorem byteString_short {length : Nat} (h : length < 254) (rest : Bytes) :
    byteString (UInt8.ofNat length :: rest) = content 1 length (UInt8.ofNat length :: rest) := by
  have hfirst : (UInt8.ofNat length).toNat = length := by
    rw [UInt8.toNat_ofNat']
    omega
  have hlt : UInt8.ofNat length < 254 := by
    rw [UInt8.lt_iff_toNat_lt, hfirst]
    exact h
  simp only [byteString, hlt, if_true, hfirst]

theorem byteString_long {length : Nat} (h : length < lengthLimit) (rest : Bytes) :
    byteString (254 :: (Bytes.ofNatLE 3 length ++ rest)) =
      content 4 length (254 :: (Bytes.ofNatLE 3 length ++ rest)) := by
  have hlength : Bytes.toNatLE (Bytes.ofNatLE 3 length) = length := by
    rw [Bytes.toNatLE_ofNatLE]
    exact Nat.mod_eq_of_lt h
  have hmark : ¬ (254 : UInt8) < 254 := by decide
  have hthree : Bytes.ofNatLE 3 length = [UInt8.ofNat length,
    UInt8.ofNat (length / 256), UInt8.ofNat (length / 256 / 256)] := rfl
  rw [hthree] at hlength ⊢
  simp only [List.cons_append, List.nil_append, byteString, hmark, if_false, if_true, hlength]

/-- A byte string is read by its length, whichever form that has. -/
theorem byteString_eq_content {data : Bytes} (h : data.length < lengthLimit) (rest : Bytes) :
    byteString (Tl.lengthBytes data.length ++ rest) =
      content (Tl.lengthBytes data.length).length data.length
        (Tl.lengthBytes data.length ++ rest) := by
  by_cases hshort : data.length < 254
  · simp only [Tl.lengthBytes, hshort, if_true, List.length_singleton, List.singleton_append]
    exact byteString_short hshort rest
  · simp only [Tl.lengthBytes, hshort, if_false, List.length_cons, Bytes.length_ofNatLE,
      List.cons_append]
    exact byteString_long h rest

theorem lacks_content {header length : Nat} {s : Bytes} (h : s.length < Tl.bytesLength length) :
    (content header length).Lacks s :=
  ⟨.short (Tl.bytesLength length) s.length, s, by simp [content, h, fail]⟩

theorem lacks_lengthBytes {length : Nat} {s : Bytes} (hs : s <+: Tl.lengthBytes length)
    (hne : s ≠ Tl.lengthBytes length) : byteString.Lacks s := by
  have hlt := length_lt_of_cut hs hne
  match s with
  | [] => exact ⟨.absent, [], rfl⟩
  | first :: rest =>
    by_cases hshort : length < 254
    · simp only [Tl.lengthBytes, hshort, if_true, List.length_cons, List.length_nil] at hlt
      omega
    · simp only [Tl.lengthBytes, hshort, if_false, List.length_cons, Bytes.length_ofNatLE,
        List.cons_prefix_cons] at hs hlt
      obtain ⟨rfl, -⟩ := hs
      match rest with
      | [] => exact ⟨.shortLength, _, rfl⟩
      | [_] => exact ⟨.shortLength, _, rfl⟩
      | [_, _] => exact ⟨.shortLength, _, rfl⟩
      | _ :: _ :: _ :: _ =>
        simp only [List.length_cons] at hlt
        omega

theorem reads_byteString {data : Bytes} (h : data.length < lengthLimit) :
    Reads byteString (Tl.byteString data) data where
  all rest := by
    let pad : Bytes := List.replicate
      (Tl.bytesLength data.length - (Tl.lengthBytes data.length).length - data.length) 0
    have hsize : (Tl.lengthBytes data.length).length + data.length + pad.length =
        Tl.bytesLength data.length := by
      simp only [pad, List.length_replicate, Tl.length_lengthBytes, Tl.bytesLength]
      split <;> omega
    have hsplit : Tl.byteString data ++ rest =
        Tl.lengthBytes data.length ++ (data ++ (pad ++ rest)) := by
      simp only [Tl.byteString, pad, List.append_assoc]
    rw [hsplit, byteString_eq_content h]
    exact content_append (Tl.lengthBytes data.length) data pad rest hsize
  part s hs hne := by
    have hlt := length_lt_of_cut hs hne
    rw [Tl.length_byteString] at hlt
    have hhead : Tl.lengthBytes data.length <+: Tl.byteString data := List.prefix_append _ _
    obtain hshort | hle := Nat.lt_or_ge s.length (Tl.lengthBytes data.length).length
    · exact lacks_lengthBytes (List.prefix_of_prefix_length_le hs hhead hshort.le)
        fun heq => hshort.ne (congrArg List.length heq)
    · obtain ⟨rest, rfl⟩ := List.prefix_of_prefix_length_le hhead hs hle
      have hcontent : (content (Tl.lengthBytes data.length).length data.length).Lacks
          (Tl.lengthBytes data.length ++ rest) := lacks_content hlt
      rwa [Lacks, ← byteString_eq_content h] at hcontent

theorem reads_vectorLength {n : Nat} (h : n ≤ maxVectorLength) :
    Reads vectorLength (Tl.u32 (UInt32.ofNat n)) n := by
  have hn : (UInt32.ofNat n).toNat = n := by
    rw [UInt32.toNat_ofNat']
    simp only [maxVectorLength] at h
    omega
  refine (reads_u32 (UInt32.ofNat n)).check ?_
  rw [hn, if_pos h]
  exact reads_pure n

variable {α : Type} {r : Reader α} {encode : α → Bytes}

theorem reads_times {l : List α} (h : ∀ a ∈ l, r.Reads (encode a) a) :
    Reads (times r l.length) (l.flatMap encode) l := by
  induction l with
  | nil => exact reads_pure []
  | cons a l ih =>
    have htail := ih fun x hx => h x (List.mem_cons_of_mem a hx)
    exact (h a List.mem_cons_self).bind (htail.map (a :: ·))

end Adnl.Reader
