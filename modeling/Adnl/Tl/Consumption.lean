import Adnl.Tl.Reader

/-! What readers that succeed have consumed. -/
namespace Adnl.Reader

theorem bind_eq_ok {α β : Type} {r : Reader α} {f : α → Reader β} {s s' : Bytes} {b : β} :
    (r >>= f) s = (.ok b, s') ↔ ∃ a t, r s = (.ok a, t) ∧ f a t = (.ok b, s') := by
  change andThen r f s = _ ↔ _
  unfold andThen
  rcases h : r s with ⟨_ | a, t⟩
  · simp
  · constructor
    · exact fun hf => ⟨a, t, rfl, hf⟩
    · rintro ⟨a', t', ha, hf⟩
      cases ha
      exact hf

theorem pure_eq_ok {α : Type} {a b : α} {s s' : Bytes} :
    (pure a : Reader α) s = (.ok b, s') ↔ a = b ∧ s = s' := by
  change ((.ok a, s) : Except Failure α × Bytes) = (.ok b, s') ↔ _
  simp

theorem length_of_raw {n : Nat} {s s' : Bytes} {b : Bytes} (h : raw n s = (.ok b, s')) :
    s.length = s'.length + n := by
  unfold raw at h
  split at h
  · simp [fail] at h
  · simp only [Prod.mk.injEq] at h
    rw [← h.2, List.length_drop]
    omega

theorem length_of_vector {n : Nat} {s s' : Bytes} {v : Vector UInt8 n}
    (h : vector n s = (.ok v, s')) : s.length = s'.length + n := by
  unfold vector at h
  split at h
  · next v' hv =>
    simp only [Prod.mk.injEq] at h
    have : (s.take n).length = n := by
      simp only [Bytes.toVector?] at hv
      split at hv
      · assumption
      · simp at hv
    rw [← h.2, List.length_drop]
    simp only [List.length_take] at this
    omega
  · simp [fail] at h

theorem length_of_u32 {s s' : Bytes} {w : UInt32} (h : u32 s = (.ok w, s')) :
    s.length = s'.length + 4 := by
  obtain ⟨b, t, hb, hp⟩ := bind_eq_ok.1 h
  obtain ⟨-, rfl⟩ := pure_eq_ok.1 hp
  exact length_of_raw hb

theorem length_of_i32 {s s' : Bytes} {w : Int32} (h : i32 s = (.ok w, s')) :
    s.length = s'.length + 4 := by
  obtain ⟨b, t, hb, hp⟩ := bind_eq_ok.1 h
  obtain ⟨-, rfl⟩ := pure_eq_ok.1 hp
  exact length_of_u32 hb

theorem length_of_content {header length : Nat} {s s' b : Bytes}
    (h : content header length s = (.ok b, s')) :
    s.length = s'.length + Tl.bytesLength length ∧ b.length = length := by
  simp only [content] at h
  by_cases h1 : s.length < Tl.bytesLength length
  · simp [h1, fail] at h
  · by_cases h2 : s.length < header + length
    · simp [h1, h2] at h
    · simp only [h1, h2, if_false, Prod.mk.injEq, Except.ok.injEq] at h
      obtain ⟨rfl, rfl⟩ := h
      constructor
      · rw [List.length_drop]; omega
      · simp only [Bytes.slice, List.length_take, List.length_drop]; omega

theorem length_of_byteString {s s' b : Bytes} (h : byteString s = (.ok b, s')) :
    s.length = s'.length + Tl.bytesLength b.length := by
  unfold byteString at h
  split at h
  · simp [fail] at h
  · split at h
    · have := length_of_content h
      rw [this.2]; exact this.1
    · split at h
      · split at h
        · have := length_of_content h
          rw [this.2]; exact this.1
        · simp [fail] at h
      · simp [fail] at h

theorem eq_of_finish {s s' : Bytes} {u : Unit} (h : finish s = (.ok u, s')) : s = [] ∧ s' = [] := by
  unfold finish at h
  split at h
  · next hs => simp only [Prod.mk.injEq] at h; exact ⟨hs, h.2 ▸ hs⟩
  · simp [fail] at h

theorem of_whole {α : Type} {r : Reader α} {s : Bytes} {a : α} (h : whole r s = .ok a) :
    r s = (.ok a, []) := by
  unfold whole at h
  generalize ht : (do let a ← r; finish; return a : Reader α) s = out at h
  obtain ⟨out, t⟩ := out
  cases h
  obtain ⟨b, t1, hr, hf⟩ := bind_eq_ok.1 ht
  obtain ⟨u, t2, hfin, hp⟩ := bind_eq_ok.1 hf
  obtain ⟨rfl, rfl⟩ := pure_eq_ok.1 hp
  obtain ⟨rfl, rfl⟩ := eq_of_finish hfin
  exact hr

end Adnl.Reader
