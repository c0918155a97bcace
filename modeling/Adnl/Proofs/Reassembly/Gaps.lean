import Adnl.Reassembly.Progress
import Mathlib.Tactic

/-! # Gaps and what fills them

A transfer is read position by position: a position is missing when it lies in a gap. Filling a
range takes the range out of what is missing, and writes the bytes at the positions taken out.
-/
namespace Adnl

namespace Gap

def Has (g : Gap) (i : Nat) : Prop := g.start ≤ i ∧ i < g.stop

instance (g : Gap) (i : Nat) : Decidable (g.Has i) := inferInstanceAs (Decidable (_ ∧ _))

theorem isEmpty_eq_false {g : Gap} : g.isEmpty = false ↔ g.start < g.stop := by
  simp [isEmpty]

theorem isEmpty_eq_true {g : Gap} : g.isEmpty = true ↔ g.stop ≤ g.start := by
  simp [isEmpty]

theorem has_meet {g h : Gap} {i : Nat} : (g.meet h).Has i ↔ g.Has i ∧ h.Has i := by
  simp only [Has, meet]
  omega

theorem isEmpty_of_has {g : Gap} {i : Nat} (h : g.Has i) : g.isEmpty = false :=
  isEmpty_eq_false.2 (Nat.lt_of_le_of_lt h.1 h.2)

/-- What is left of a gap are the positions outside the range. -/
theorem exists_mem_minus {g h : Gap} {i : Nat} :
    (∃ r ∈ g.minus h, r.Has i) ↔ g.Has i ∧ ¬ h.Has i := by
  rw [minus]
  cases hm : (g.meet h).isEmpty with
  | true =>
    rw [isEmpty_eq_true] at hm
    simp only [if_true, List.mem_singleton, exists_eq_left, meet, Has] at hm ⊢
    omega
  | false =>
    rw [isEmpty_eq_false] at hm
    have hkept (r : Gap) : (¬ r.isEmpty = true ∧ r.Has i) ↔ r.Has i := by
      refine ⟨fun h => h.2, fun h => ⟨?_, h⟩⟩
      simp [isEmpty_of_has h]
    simp only [Bool.false_eq_true, if_false, List.mem_filter, Bool.not_eq_true', and_assoc,
      ← Bool.not_eq_true, hkept, List.mem_cons, List.not_mem_nil, or_false, exists_eq_or_imp,
      exists_eq_left]
    simp only [meet, Has] at hm ⊢
    omega

theorem of_mem_minus {g h r : Gap} (hg : g.start < g.stop) (hr : r ∈ g.minus h) :
    r.start < r.stop ∧ r.stop ≤ g.stop := by
  rw [minus] at hr
  cases hm : (g.meet h).isEmpty with
  | true =>
    simp only [hm, if_true, List.mem_singleton] at hr
    rw [hr]
    exact ⟨hg, Nat.le_refl _⟩
  | false =>
    simp only [hm, Bool.false_eq_true, if_false, List.mem_filter, Bool.not_eq_true',
      isEmpty_eq_false, List.mem_cons, List.not_mem_nil, or_false] at hr
    rw [isEmpty_eq_false] at hm
    obtain ⟨rfl | rfl, hne⟩ := hr
    · simp only [meet] at hm hne ⊢
      omega
    · exact ⟨hne, Nat.le_refl _⟩

end Gap

def Covers (ranges : List Gap) (i : Nat) : Prop := ∃ g ∈ ranges, g.Has i

instance (ranges : List Gap) (i : Nat) : Decidable (Covers ranges i) :=
  inferInstanceAs (Decidable (∃ g ∈ ranges, g.Has i))

def Complete (n : Nat) (ranges : List Gap) : Prop := ∀ i < n, Covers ranges i

instance (n : Nat) (ranges : List Gap) : Decidable (Complete n ranges) :=
  inferInstanceAs (Decidable (∀ i < n, Covers ranges i))

theorem covers_cons {g : Gap} {ranges : List Gap} {i : Nat} :
    Covers (g :: ranges) i ↔ g.Has i ∨ Covers ranges i := by
  simp [Covers]

namespace Transfer

/-- The byte at the position is not known yet. -/
def Missing (t : Transfer) (i : Nat) : Prop := ∃ g ∈ t.gaps, g.Has i

instance (t : Transfer) (i : Nat) : Decidable (t.Missing i) :=
  inferInstanceAs (Decidable (∃ g ∈ t.gaps, g.Has i))

/-- The buffer has its size, and the gaps are not empty and lie in it. -/
structure Sane (t : Transfer) : Prop where
  length : t.buffer.length = t.total
  gaps : ∀ g ∈ t.gaps, g.start < g.stop ∧ g.stop ≤ t.total

variable {t : Transfer} {start : Nat} {data : Bytes}

theorem missing_start {total deadline i : Nat} :
    (Transfer.start total deadline).Missing i ↔ i < total := by
  simp [Missing, Transfer.start, Gap.Has]

theorem sane_start {total : Nat} (h : 0 < total) (deadline : Nat) :
    (Transfer.start total deadline).Sane where
  length := by simp [Transfer.start]
  gaps := by simpa [Transfer.start] using h

theorem missing_fill {i : Nat} : (t.fill start data).2.Missing i ↔
    t.Missing i ∧ ¬ (⟨start, start + data.length⟩ : Gap).Has i := by
  simp only [Missing, fill, List.mem_flatMap]
  constructor
  · rintro ⟨r, ⟨g, hg, hr⟩, hi⟩
    obtain ⟨hgi, hout⟩ := Gap.exists_mem_minus.1 ⟨r, hr, hi⟩
    exact ⟨⟨g, hg, hgi⟩, hout⟩
  · rintro ⟨⟨g, hg, hgi⟩, hout⟩
    obtain ⟨r, hr, hi⟩ := Gap.exists_mem_minus.2 ⟨hgi, hout⟩
    exact ⟨r, ⟨g, hg, hr⟩, hi⟩

theorem Sane.isComplete_iff (h : t.Sane) : t.isComplete = true ↔ ∀ i, ¬ t.Missing i := by
  rw [isComplete, List.isEmpty_iff]
  constructor
  · rintro hnone i ⟨g, hg, -⟩
    rw [hnone] at hg
    cases hg
  · intro hnone
    refine List.eq_nil_iff_forall_not_mem.2 fun g hg => hnone g.start ⟨g, hg, ?_⟩
    exact ⟨Nat.le_refl _, (h.gaps g hg).1⟩

/-- The parts of the gaps that a range fills. -/
def pieces (t : Transfer) (range : Gap) : List Gap :=
  (t.gaps.map (·.meet range)).filter fun g => !g.isEmpty

theorem exists_mem_pieces {range : Gap} {i : Nat} :
    (∃ g ∈ t.pieces range, g.Has i) ↔ t.Missing i ∧ range.Has i := by
  simp only [pieces, List.mem_filter, List.mem_map, Missing]
  constructor
  · rintro ⟨_, ⟨⟨g, hg, rfl⟩, -⟩, hi⟩
    obtain ⟨hgi, hri⟩ := Gap.has_meet.1 hi
    exact ⟨⟨g, hg, hgi⟩, hri⟩
  · rintro ⟨⟨g, hg, hgi⟩, hri⟩
    have hi : (g.meet range).Has i := Gap.has_meet.2 ⟨hgi, hri⟩
    exact ⟨g.meet range, ⟨⟨g, hg, rfl⟩, by simp [Gap.isEmpty_of_has hi]⟩, hi⟩

theorem nonempty_of_mem_pieces {range g : Gap} (h : g ∈ t.pieces range) : g.start < g.stop := by
  simp only [pieces, List.mem_filter, Bool.not_eq_true', Gap.isEmpty_eq_false] at h
  exact h.2

theorem total_size_eq_zero_iff {gs : List Gap} (h : ∀ g ∈ gs, g.start < g.stop) :
    Bytes.total (gs.map Gap.size) = 0 ↔ gs = [] := by
  cases gs with
  | nil => simp [Bytes.total]
  | cons g gs =>
    have hg := h g List.mem_cons_self
    simp only [List.map_cons, Bytes.total, Gap.size, reduceCtorEq, iff_false]
    omega

/-- Nothing is written exactly when no position of the range is missing. -/
theorem fst_fill_eq_zero_iff : (t.fill start data).1 = 0 ↔
    ∀ i, t.Missing i → ¬ (⟨start, start + data.length⟩ : Gap).Has i := by
  change Bytes.total ((t.pieces ⟨start, start + data.length⟩).map Gap.size) = 0 ↔ _
  rw [total_size_eq_zero_iff fun g hg => nonempty_of_mem_pieces hg]
  constructor
  · intro hnone i hm hr
    obtain ⟨g, hg, -⟩ := exists_mem_pieces.2 ⟨hm, hr⟩
    rw [hnone] at hg
    cases hg
  · intro hnone
    refine List.eq_nil_iff_forall_not_mem.2 fun g hg => ?_
    have hhas : g.Has g.start := ⟨Nat.le_refl _, nonempty_of_mem_pieces hg⟩
    obtain ⟨hm, hr⟩ := exists_mem_pieces.1 ⟨g, hg, hhas⟩
    exact hnone g.start hm hr

theorem getElem?_splice {buffer data : Bytes} {start : Nat}
    (h : start + data.length ≤ buffer.length) (i : Nat) :
    (splice buffer start data)[i]? =
      if (⟨start, start + data.length⟩ : Gap).Has i then data[i - start]? else buffer[i]? := by
  have htake : (buffer.take start).length = start := by
    rw [List.length_take]
    exact Nat.min_eq_left (Nat.le_of_add_right_le h)
  rw [splice]
  by_cases hlow : start ≤ i
  · rw [List.getElem?_append_right (htake.symm ▸ hlow), htake]
    split_ifs with hi
    · have hdata : i - start < data.length := by
        simp only [Gap.Has] at hi
        omega
      rw [List.getElem?_append_left hdata]
    · have hdata : data.length ≤ i - start := by
        simp only [Gap.Has] at hi
        omega
      rw [List.getElem?_append_right hdata, List.getElem?_drop]
      congr 1
      omega
  · have hi : ¬ (⟨start, start + data.length⟩ : Gap).Has i := fun hi => hlow hi.1
    have hlt : i < start := Nat.lt_of_not_le hlow
    rw [if_neg hi, List.getElem?_append_left (htake.symm ▸ hlt), List.getElem?_take_of_lt hlt]

/-- The data that belongs to a piece of its range. -/
def piece (start : Nat) (data : Bytes) (g : Gap) : Bytes :=
  Bytes.slice data (g.start - start) g.size

theorem length_piece {g : Gap} (hlow : start ≤ g.start) (hhigh : g.stop ≤ start + data.length) :
    (piece start data g).length = g.size := by
  simp only [piece, Bytes.slice, Gap.size, List.length_take, List.length_drop]
  omega

theorem getElem?_piece {g : Gap} (hlow : start ≤ g.start) {i : Nat} (hi : g.Has i) :
    (piece start data g)[i - g.start]? = data[i - start]? := by
  obtain ⟨hfrom, hto⟩ := hi
  have hlt : i - g.start < g.size := by
    rw [Gap.size]
    omega
  have hplace : g.start - start + (i - g.start) = i - start := by omega
  rw [piece, Bytes.slice, List.getElem?_take_of_lt hlt, List.getElem?_drop, hplace]

/-- Writing some pieces of a range writes the data at their positions. -/
theorem foldl_splice {pieces : List Gap} {buffer : Bytes}
    (hpieces : ∀ g ∈ pieces, start ≤ g.start ∧ g.start < g.stop ∧ g.stop ≤ start + data.length ∧
      g.stop ≤ buffer.length) :
    (pieces.foldl (fun b g => splice b g.start (piece start data g)) buffer).length =
        buffer.length ∧
      ∀ i, (pieces.foldl (fun b g => splice b g.start (piece start data g)) buffer)[i]? =
        if ∃ g ∈ pieces, g.Has i then data[i - start]? else buffer[i]? := by
  induction pieces generalizing buffer with
  | nil => simp
  | cons g pieces ih =>
    obtain ⟨hlow, hne, hhigh, hbuffer⟩ := hpieces g List.mem_cons_self
    have hstop : g.start + (piece start data g).length = g.stop := by
      rw [length_piece hlow hhigh, Gap.size, Nat.add_sub_cancel' (Nat.le_of_lt hne)]
    have hfits : g.start + (piece start data g).length ≤ buffer.length := hstop ▸ hbuffer
    have hrest : ∀ g' ∈ pieces, start ≤ g'.start ∧ g'.start < g'.stop ∧
        g'.stop ≤ start + data.length ∧
        g'.stop ≤ (splice buffer g.start (piece start data g)).length := by
      rw [length_splice hfits]
      exact fun g' hg' => hpieces g' (List.mem_cons_of_mem _ hg')
    obtain ⟨hlength, hbytes⟩ := ih hrest
    refine ⟨hlength.trans (length_splice hfits), fun i => ?_⟩
    have hhead := getElem?_splice hfits i
    rw [hstop] at hhead
    rw [List.foldl_cons, hbytes, hhead]
    by_cases hi : g.Has i
    · simp [hi, getElem?_piece hlow hi]
    · simp [hi]

theorem Sane.bounds_of_mem_pieces (h : t.Sane) :
    ∀ g ∈ t.pieces ⟨start, start + data.length⟩, start ≤ g.start ∧ g.start < g.stop ∧
      g.stop ≤ start + data.length ∧ g.stop ≤ t.buffer.length := by
  intro g hg
  have hne := nonempty_of_mem_pieces hg
  have hlength := h.length
  simp only [pieces, List.mem_filter, List.mem_map] at hg
  obtain ⟨⟨gap, hgap, rfl⟩, -⟩ := hg
  have hstop := (h.gaps gap hgap).2
  simp only [Gap.meet] at hne ⊢
  omega

theorem Sane.fill (h : t.Sane) : (t.fill start data).2.Sane where
  length := (foldl_splice h.bounds_of_mem_pieces).1.trans h.length
  gaps := by
    intro r hr
    obtain ⟨g, hg, hr⟩ := List.mem_flatMap.1 hr
    obtain ⟨hne, hstop⟩ := h.gaps g hg
    obtain ⟨hrest, hle⟩ := Gap.of_mem_minus hne hr
    exact ⟨hrest, hle.trans hstop⟩

/-- Filling writes the data where it was missing. -/
theorem Sane.getElem?_fill (h : t.Sane) (start : Nat) (data : Bytes) (i : Nat) :
    (t.fill start data).2.buffer[i]? =
      if t.Missing i ∧ (⟨start, start + data.length⟩ : Gap).Has i then data[i - start]?
      else t.buffer[i]? := by
  refine ((foldl_splice h.bounds_of_mem_pieces).2 i).trans ?_
  simp only [exists_mem_pieces]

end Transfer

end Adnl
