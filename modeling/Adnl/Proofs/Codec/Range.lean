import Adnl.Proofs.Codec.Reading

/-! # Which readers can run out of range

Only a byte string can. It may spell a short length in the long form. What is consumed is then the
size of the short form, so the content can stick out of it, and near the end of the data it can lie
beyond the end.
-/
namespace Adnl

namespace Reader

/-- Reading fails because content would lie beyond the end. -/
def OutOfRange {α : Type} (r : Reader α) (s : Bytes) : Prop := (r s).1 = .error .outOfRange

def Safe {α : Type} (r : Reader α) : Prop := ∀ s, ¬ r.OutOfRange s

theorem bind_pure {α : Type} (r : Reader α) : r >>= pure = r := by
  funext s
  change andThen r pure s = r s
  rw [andThen]
  rcases r s with ⟨_ | a, t⟩ <;> rfl

theorem bind_assoc {α β γ : Type} (r : Reader α) (f : α → Reader β) (g : β → Reader γ) :
    r >>= f >>= g = r >>= fun a => f a >>= g := by
  funext s
  change andThen (andThen r f) g s = andThen r (fun a => andThen (f a) g) s
  simp only [andThen]
  rcases r s with ⟨_ | a, t⟩ <;> rfl

instance : LawfulMonad Reader := LawfulMonad.mk' Reader bind_pure (fun _ _ => rfl) bind_assoc

section
variable {α β : Type} {r : Reader α} {f : α → Reader β} {s : Bytes}

theorem outOfRange_bind : (r >>= f).OutOfRange s ↔
    r.OutOfRange s ∨ ∃ a t, r s = (.ok a, t) ∧ (f a).OutOfRange t := by
  change (andThen r f s).1 = _ ↔ (r s).1 = _ ∨ _
  rw [andThen]
  rcases r s with ⟨e | a, t⟩
  · simp
  · simp only [reduceCtorEq, false_or, Prod.mk.injEq, Except.ok.injEq]
    exact ⟨fun h => ⟨a, t, ⟨rfl, rfl⟩, h⟩, by rintro ⟨_, _, ⟨rfl, rfl⟩, h⟩; exact h⟩

theorem safe_pure (a : α) : Safe (pure a) := fun _ h => by cases h

theorem safe_fail (e : Error) : Safe (fail e : Reader α) := fun _ h => by cases h

theorem Safe.bind (hr : r.Safe) (hf : ∀ a, (f a).Safe) : (r >>= f).Safe := by
  intro s h
  rcases outOfRange_bind.1 h with h | ⟨a, t, -, h⟩
  · exact hr s h
  · exact hf a t h

theorem Safe.map (hr : r.Safe) (f : α → β) : (r >>= fun a => pure (f a)).Safe :=
  hr.bind fun a => safe_pure (f a)

theorem Safe.outOfRange_bind (hr : r.Safe) : (r >>= f).OutOfRange s ↔
    ∃ a t, r s = (.ok a, t) ∧ (f a).OutOfRange t := by
  rw [Reader.outOfRange_bind, or_iff_right (hr s)]

theorem outOfRange_bind_safe (hf : ∀ a, (f a).Safe) : (r >>= f).OutOfRange s ↔ r.OutOfRange s := by
  rw [Reader.outOfRange_bind]
  exact or_iff_left fun ⟨a, t, _, h⟩ => hf a t h

theorem outOfRange_optional {present : Bool} :
    (optional present r).OutOfRange s ↔ present = true ∧ r.OutOfRange s := by
  cases present with
  | false => exact iff_of_false (safe_pure none s) fun h => Bool.noConfusion h.1
  | true =>
    change OutOfRange (r >>= fun a => pure (some a)) s ↔ _
    rw [outOfRange_bind_safe fun a => safe_pure (some a)]
    exact (and_iff_right rfl).symm

theorem Safe.optional (hr : r.Safe) (present : Bool) : (optional present r).Safe :=
  fun s h => hr s (outOfRange_optional.1 h).2

theorem outOfRange_times {n : Nat} : (times r n).OutOfRange s ↔
    ∃ j < n, ∃ l t, times r j s = (.ok l, t) ∧ r.OutOfRange t := by
  induction n generalizing s with
  | zero => exact iff_of_false (safe_pure [] s) fun ⟨j, hj, _⟩ => absurd hj (Nat.not_lt_zero j)
  | succ n ih =>
    have hmap (a : α) (t : Bytes) :
        OutOfRange (times r n >>= fun l => pure (a :: l)) t ↔ (times r n).OutOfRange t :=
      outOfRange_bind_safe fun l => safe_pure (a :: l)
    change OutOfRange (r >>= fun a => times r n >>= fun l => pure (a :: l)) s ↔ _
    simp only [outOfRange_bind (r := r), hmap, ih]
    constructor
    · rintro (h | ⟨a, t, ha, j, hj, l, u, hl, h⟩)
      · exact ⟨0, Nat.succ_pos n, [], s, rfl, h⟩
      · refine ⟨j + 1, Nat.succ_lt_succ hj, a :: l, u, ?_, h⟩
        exact bind_eq_ok.2 ⟨a, t, ha, bind_eq_ok.2 ⟨l, u, hl, rfl⟩⟩
    · rintro ⟨j, hj, l, u, hl, h⟩
      cases j with
      | zero =>
        obtain ⟨-, rfl⟩ := pure_eq_ok.1 hl
        exact .inl h
      | succ j =>
        obtain ⟨a, t, ha, hrest⟩ := bind_eq_ok.1 hl
        obtain ⟨l', u', hl', hend⟩ := bind_eq_ok.1 hrest
        obtain ⟨-, rfl⟩ := pure_eq_ok.1 hend
        exact .inr ⟨a, t, ha, j, Nat.lt_of_succ_lt_succ hj, l', u', hl', h⟩

theorem Safe.times (hr : r.Safe) (n : Nat) : (times r n).Safe := by
  intro s h
  obtain ⟨_, _, _, t, _, h⟩ := outOfRange_times.1 h
  exact hr t h

end

theorem safe_raw (n : Nat) : (raw n).Safe := by
  intro s h
  unfold OutOfRange raw at h
  split_ifs at h
  cases h

theorem safe_vector (n : Nat) : (vector n).Safe := by
  intro s h
  unfold OutOfRange vector at h
  split at h <;> cases h

theorem safe_u32 : u32.Safe := (safe_raw 4).map _

theorem safe_u64 : u64.Safe := (safe_raw 8).map _

theorem safe_i32 : i32.Safe := safe_u32.map _

theorem safe_tag (expected : UInt32) : (tag expected).Safe :=
  safe_u32.bind fun found => by
    split_ifs
    · exact safe_pure ()
    · exact safe_fail _

theorem safe_vectorLength : vectorLength.Safe :=
  safe_u32.bind fun count => by
    split_ifs
    · exact safe_pure _
    · exact safe_fail _

theorem safe_finish : finish.Safe := by
  intro s h
  unfold OutOfRange finish at h
  split_ifs at h
  cases h

theorem whole_eq_outOfRange {α : Type} {r : Reader α} {data : Bytes} :
    whole r data = .error .outOfRange ↔ r.OutOfRange data :=
  outOfRange_bind_safe fun a => safe_finish.bind fun _ => safe_pure a

/-- The reader takes exactly `n` bytes, whatever they are. -/
def Skips {α : Type} (r : Reader α) (n : Nat) : Prop :=
  r.Safe ∧ ∀ s t, (∃ a, r s = (.ok a, t)) ↔ n ≤ s.length ∧ t = s.drop n

theorem skips_raw (n : Nat) : (raw n).Skips n := by
  refine ⟨safe_raw n, fun s t => ?_⟩
  unfold raw
  split_ifs with h
  · exact iff_of_false (by simp [fail]) fun h' => absurd h'.1 (Nat.not_le_of_lt h)
  · simp [Nat.le_of_not_lt h, eq_comm]

theorem skips_vector (n : Nat) : (vector n).Skips n := by
  refine ⟨safe_vector n, fun s t => ?_⟩
  have hv : (Bytes.toVector? n (s.take n)).isSome ↔ n ≤ s.length := by
    simp [Bytes.toVector?, Option.isSome_dite]
  unfold vector
  cases h : Bytes.toVector? n (s.take n) with
  | none => exact iff_of_false (by simp [fail]) fun h' => by simp [h] at hv; omega
  | some v => simp [hv.1 (by simp [h]), eq_comm]

theorem Skips.map {α β : Type} {r : Reader α} {n : Nat} (hr : r.Skips n) (f : α → β) :
    Skips (r >>= fun a => pure (f a)) n := by
  refine ⟨hr.1.map f, fun s t => ?_⟩
  rw [← hr.2]
  constructor
  · rintro ⟨b, hb⟩
    obtain ⟨a, u, ha, hp⟩ := bind_eq_ok.1 hb
    obtain ⟨-, rfl⟩ := pure_eq_ok.1 hp
    exact ⟨a, ha⟩
  · rintro ⟨a, ha⟩
    exact ⟨f a, bind_eq_ok.2 ⟨a, t, ha, rfl⟩⟩

theorem skips_i32 : i32.Skips 4 := ((skips_raw 4).map _).map _

/-- Behind bytes that are skipped, what follows them counts. -/
theorem Skips.outOfRange_bind {α β : Type} {r : Reader α} {f : α → Reader β} {n : Nat}
    {P : Bytes → Prop} (hr : r.Skips n) (hf : ∀ a t, (f a).OutOfRange t ↔ P t) (s : Bytes) :
    (r >>= f).OutOfRange s ↔ n ≤ s.length ∧ P (s.drop n) := by
  have h := hr.2 s
  rw [hr.1.outOfRange_bind]
  constructor
  · rintro ⟨a, t, ha, ht⟩
    obtain ⟨hn, rfl⟩ := (h t).1 ⟨a, ha⟩
    exact ⟨hn, (hf a _).1 ht⟩
  · rintro ⟨hn, ht⟩
    obtain ⟨a, ha⟩ := (h (s.drop n)).2 ⟨hn, rfl⟩
    exact ⟨a, s.drop n, ha, (hf a _).2 ht⟩

/-- The data starts with a length below 254 in the long form. -/
def Overlong (s : Bytes) (d : UInt8) : Prop := d < 254 ∧ ∃ rest, s = 254 :: d :: 0 :: 0 :: rest

/-- The two forms of the length differ in size once padded, unless it is a multiple of four. -/
def Misaligned (s : Bytes) : Prop := ∃ d, Overlong s d ∧ d.toNat % 4 ≠ 0

/-- The data is long enough for the short form but not for the header and the content. -/
def Overruns (s : Bytes) : Prop :=
  ∃ d, Overlong s d ∧ Tl.bytesLength d.toNat ≤ s.length ∧ s.length < 4 + d.toNat

def headerLength (s : Bytes) : Nat := if s.head? = some 254 then 4 else 1

theorem outOfRange_content {header length : Nat} {s : Bytes} :
    (content header length).OutOfRange s ↔
      Tl.bytesLength length ≤ s.length ∧ s.length < header + length := by
  unfold OutOfRange content
  by_cases h1 : s.length < Tl.bytesLength length
  · simp [h1, fail]
  · by_cases h2 : s.length < header + length <;> simp [h1, h2, Nat.le_of_not_lt h1]

theorem content_eq_ok {header length : Nat} {s b t : Bytes}
    (h : content header length s = (.ok b, t)) :
    b = Bytes.slice s header length ∧ t = s.drop (Tl.bytesLength length) ∧ b.length = length := by
  have hlength := (length_of_content h).2
  simp only [content] at h
  split_ifs at h
  · cases h
  · cases h
  · cases h
    exact ⟨rfl, rfl, hlength⟩

/-- How the length in front of a byte string is read. -/
theorem byteString_cases (s : Bytes) :
    (∃ e, byteString s = fail e s) ∨
      (∃ d : UInt8, d.toNat < 254 ∧ s.head? = some d ∧ byteString s = content 1 d.toNat s) ∨
      ∃ a b c rest, s = 254 :: a :: b :: c :: rest ∧
        byteString s = content 4 (Bytes.toNatLE [a, b, c]) s := by
  unfold byteString
  match s with
  | [] => exact .inl ⟨_, rfl⟩
  | first :: rest =>
    by_cases hshort : first < 254
    · have hlt : first.toNat < 254 := UInt8.lt_iff_toNat_lt.1 hshort
      exact .inr (.inl ⟨first, hlt, rfl, by simp [hshort]⟩)
    · by_cases hlong : first = 254
      · subst hlong
        match rest with
        | a :: b :: c :: rest => exact .inr (.inr ⟨a, b, c, rest, rfl, rfl⟩)
        | [] => exact .inl ⟨_, rfl⟩
        | [_] => exact .inl ⟨_, rfl⟩
        | [_, _] => exact .inl ⟨_, rfl⟩
      · exact .inl ⟨.tl .reservedLength, by simp [hshort, hlong]⟩

theorem byteString_of_overlong {s : Bytes} {d : UInt8} (h : Overlong s d) :
    byteString s = content 4 d.toNat s := by
  obtain ⟨-, rest, rfl⟩ := h
  have hd : Bytes.toNatLE [d, 0, 0] = d.toNat := by simp [Bytes.toNatLE]
  change content 4 (Bytes.toNatLE [d, 0, 0]) _ = _
  rw [hd]

theorem ne_of_toNat_lt {first : UInt8} (h : first.toNat < 254) : first ≠ 254 := by
  rintro rfl
  exact absurd h (by decide)

theorem overlong_iff {a b c d : UInt8} {rest : Bytes} :
    Overlong (254 :: a :: b :: c :: rest) d ↔
      Bytes.toNatLE [a, b, c] < 254 ∧ d.toNat = Bytes.toNatLE [a, b, c] := by
  have hd := UInt8.lt_iff_toNat_lt (a := d) (b := 254)
  simp only [Overlong, List.cons.injEq, true_and, Bytes.toNatLE, ← UInt8.toNat_inj, hd]
  constructor
  · rintro ⟨h, _, ha, hb, hc, -⟩
    simp only [UInt8.reduceToNat] at h hb hc ⊢
    omega
  · rintro ⟨h, he⟩
    simp only [UInt8.reduceToNat] at h ⊢
    exact ⟨by omega, rest, by omega, by omega, by omega, rfl⟩

theorem exists_overlong_iff {a b c : UInt8} {rest : Bytes} {P : Nat → Prop} :
    (∃ d, Overlong (254 :: a :: b :: c :: rest) d ∧ P d.toNat) ↔
      Bytes.toNatLE [a, b, c] < 254 ∧ P (Bytes.toNatLE [a, b, c]) := by
  simp only [overlong_iff]
  constructor
  · rintro ⟨d, ⟨h, he⟩, hp⟩
    exact ⟨h, he ▸ hp⟩
  · rintro ⟨h, hp⟩
    have hback : (UInt8.ofNat (Bytes.toNatLE [a, b, c])).toNat = Bytes.toNatLE [a, b, c] := by
      rw [UInt8.toNat_ofNat']
      omega
    exact ⟨UInt8.ofNat (Bytes.toNatLE [a, b, c]), ⟨h, hback⟩, hback.symm ▸ hp⟩

theorem not_overlong_of_head {s : Bytes} {first : UInt8} (hs : s.head? = some first)
    (h : first.toNat < 254) (d : UInt8) : ¬ Overlong s d := by
  rintro ⟨-, rest, rfl⟩
  exact ne_of_toNat_lt h (Option.some.inj hs).symm

theorem outOfRange_byteString {s : Bytes} : byteString.OutOfRange s ↔ Overruns s := by
  unfold OutOfRange
  rcases byteString_cases s with ⟨e, he⟩ | ⟨first, hfirst, hhead, he⟩ | ⟨a, b, c, rest, rfl, he⟩
  · refine iff_of_false (by simp [he, fail]) ?_
    rintro ⟨d, hd, hlong, hshort⟩
    have hout := outOfRange_content.2 ⟨hlong, hshort⟩
    rw [OutOfRange, ← byteString_of_overlong hd, he] at hout
    cases hout
  · -- the short form holds its header and its content
    rw [he]
    refine iff_of_false (fun h => ?_) ?_
    · obtain ⟨hle, hlt⟩ := outOfRange_content.1 h
      simp only [Tl.bytesLength, hfirst, if_true] at hle
      omega
    · rintro ⟨d, hd, -⟩
      exact not_overlong_of_head hhead hfirst d hd
  · rw [he]
    refine outOfRange_content.trans ?_
    unfold Overruns
    rw [exists_overlong_iff (P := fun n => Tl.bytesLength n ≤ _ ∧ _ < 4 + n), iff_and_self]
    rintro ⟨hle, hlt⟩
    by_contra hlong
    simp only [Tl.bytesLength, hlong, if_false] at hle
    omega

/-- The content that is read stands right behind its length. It lies in what was consumed unless
the length is misaligned. -/
theorem byteString_eq_ok {s b t : Bytes} (h : byteString s = (.ok b, t)) :
    t = s.drop (s.length - t.length) ∧ b = Bytes.slice s (headerLength s) b.length ∧
      (headerLength s + b.length ≤ s.length - t.length ↔ ¬ Misaligned s) := by
  have hconsumed : s.length - t.length = Tl.bytesLength b.length := by
    have := length_of_byteString h
    omega
  rw [hconsumed]
  rcases byteString_cases s with ⟨e, he⟩ | ⟨first, hfirst, hhead, he⟩ | ⟨a, c, d, rest, rfl, he⟩
  · rw [he] at h
    cases h
  · have hheader : headerLength s = 1 := by simp [headerLength, hhead, ne_of_toNat_lt hfirst]
    obtain ⟨hb, ht, hlength⟩ := content_eq_ok (he ▸ h)
    rw [hheader, hlength]
    refine ⟨ht, hb, iff_of_true ?_ ?_⟩
    · simp only [Tl.bytesLength, hfirst, if_true]
      omega
    · rintro ⟨d, hd, -⟩
      exact not_overlong_of_head hhead hfirst d hd
  · have hheader : headerLength (254 :: a :: c :: d :: rest) = 4 := rfl
    obtain ⟨hb, ht, hlength⟩ := content_eq_ok (he ▸ h)
    rw [hheader, hlength]
    refine ⟨ht, hb, ?_⟩
    unfold Misaligned
    rw [exists_overlong_iff (P := fun n => n % 4 ≠ 0)]
    simp only [Tl.bytesLength]
    split_ifs <;> omega

end Reader

end Adnl
