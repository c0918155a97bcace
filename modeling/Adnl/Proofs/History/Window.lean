import Adnl.History
import Mathlib.Data.Nat.Bitwise
import Mathlib.Tactic

/-! # The replay window and the numbers that it stands for

A window reflects a list of numbers when its base is the half of the highest of them and its marks
are theirs, as far as it reaches. Taking in a number keeps this up whatever the distance.
-/
namespace Adnl

theorem toNat_halfWidth : halfWidth.toNat = 256 := rfl

theorem toNat_floorHalf (n : UInt64) : (floorHalf n).toNat = n.toNat / 256 * 256 := by
  have := n.toNat_lt
  simp only [floorHalf, halfWidth, UInt64.toNat_mul, UInt64.toNat_div]
  simp
  omega

theorem le_floorHalf_iff (b n : UInt64) : b ≤ floorHalf n ↔ b.toNat ≤ n.toNat / 256 * 256 := by
  rw [UInt64.le_iff_toNat_le, toNat_floorHalf]

theorem toNat_saturatingAdd (a b : UInt64) :
    (saturatingAdd a b).toNat = min (a.toNat + b.toNat) (2 ^ 64 - 1) := by
  have ha := a.toNat_lt
  have hb := b.toNat_lt
  have hs := UInt64.toNat_add a b
  rw [saturatingAdd]
  split_ifs with h <;> rw [UInt64.lt_iff_toNat_lt] at h
  · simp
    omega
  · omega

theorem le_saturatingAdd (a b : UInt64) : a ≤ saturatingAdd a b := by
  have ha := a.toNat_lt
  rw [UInt64.le_iff_toNat_le, toNat_saturatingAdd]
  omega

/-- Saturation is never felt: nothing exceeds the number at which the sum stops. -/
theorem saturatingAdd_lt_iff (a b c : UInt64) :
    saturatingAdd a b < c ↔ a.toNat + b.toNat < c.toNat := by
  have hc := c.toNat_lt
  rw [UInt64.lt_iff_toNat_lt, toNat_saturatingAdd]
  omega

theorem checkedAdd_eq_some_iff (a b c : UInt64) :
    checkedAdd a b = some c ↔ a.toNat + b.toNat = c.toNat := by
  have ha := a.toNat_lt
  have hb := b.toNat_lt
  have hc := c.toNat_lt
  have hs := UInt64.toNat_add a b
  rw [checkedAdd]
  split_ifs with h <;> rw [UInt64.lt_iff_toNat_lt] at h
  · simp
    omega
  · rw [Option.some_inj, ← UInt64.toNat_inj]
    omega

theorem toNat_max (a b : UInt64) : (max a b).toNat = max a.toNat b.toNat := by
  rw [show max a b = if a ≤ b then b else a from rfl]
  split_ifs with h <;> rw [UInt64.le_iff_toNat_le] at h <;> omega

namespace Marks

theorem toNat_mask (i : Fin 512) : (mask i).toNat = 2 ^ (i.val % 64) := by
  have h : 2 ^ (i.val % 64) < 2 ^ 64 := Nat.pow_lt_pow_right (by decide) (Nat.mod_lt _ (by decide))
  simpa [mask, Nat.one_shiftLeft] using h

theorem has_eq_testBit (m : Marks) (i : Fin 512) (h : (word i).val < 8) :
    m.has i = m[(word i).val].toNat.testBit (i.val % 64) := by
  change (m[(word i).val] &&& mask i != 0) = _
  rw [Bool.eq_iff_iff, bne_iff_ne, ne_eq, ← UInt64.toNat_inj, UInt64.toNat_and, toNat_mask,
    Nat.and_two_pow]
  cases m[(word i).val].toNat.testBit (i.val % 64) <;> simp

@[simp] theorem has_empty (i : Fin 512) : empty.has i = false := by
  simp [has, empty]

/-- Setting a mark adds its place and leaves all others as they are. -/
theorem has_set (m : Marks) (i j : Fin 512) : (m.set i).has j = (m.has j || decide (i = j)) := by
  have hj := (word j).isLt
  rw [has_eq_testBit (m.set i) j hj, has_eq_testBit m j hj]
  by_cases hw : word i = word j
  · have hbit : i.val % 64 = j.val % 64 ↔ i = j := by
      have := congrArg Fin.val hw
      simp only [word] at this
      omega
    have hget : (m.set i)[(word j).val] = m[(word j).val] ||| mask i := by
      simp [set, hw]
    rw [hget, UInt64.toNat_or, Nat.testBit_or, toNat_mask, Nat.testBit_two_pow]
    simp [hbit]
  · have hget : (m.set i)[(word j).val] = m[(word j).val] :=
      Vector.getElem_set_ne _ _ fun h => hw (Fin.ext h)
    have hne : i ≠ j := fun h => hw (congrArg word h)
    simp [hget, hne]

theorem has_slide (m : Marks) (i : Fin 512) :
    m.slide.has i = if h : i.val < 256 then m.has ⟨i + 256, by omega⟩ else false := by
  rw [has_eq_testBit m.slide i (word i).isLt]
  split_ifs with h
  · have hword : i.val / 64 < 4 := by omega
    have hplace : (i.val + 256) / 64 = i.val / 64 + 4 := by omega
    have hbit : (i.val + 256) % 64 = i.val % 64 := by omega
    rw [has_eq_testBit m ⟨i + 256, by omega⟩ (word _).isLt]
    simp [slide, word, hword, hplace, hbit]
  · have hword : ¬ i.val / 64 < 4 := by omega
    simp [slide, word, hword]

end Marks

def highest : List UInt64 → UInt64
  | [] => 0
  | n :: r => max (highest r) n

theorem le_highest {seen : List UInt64} {n : UInt64} (h : n ∈ seen) :
    n.toNat ≤ (highest seen).toNat := by
  induction seen with
  | nil => cases h
  | cons m r ih =>
    rw [highest, toNat_max]
    rcases List.mem_cons.1 h with rfl | h
    · omega
    · have := ih h
      omega

/-- The number is new, and its half is at most one below that of the highest number seen. -/
def Admissible (seen : List UInt64) (n : UInt64) : Prop :=
  n ≠ 0 ∧ n ∉ seen ∧ (highest seen).toNat / 256 * 256 ≤ n.toNat / 256 * 256 + 256

theorem not_admissible_cons {seen : List UInt64} {n : UInt64} (m : UInt64)
    (h : ¬ Admissible seen n) : ¬ Admissible (m :: seen) n := by
  rintro ⟨hzero, hnew, hrecent⟩
  rw [highest, toNat_max] at hrecent
  have hmono := Nat.div_le_div_right (c := 256) (le_max_left (highest seen).toNat m.toNat)
  exact h ⟨hzero, fun hn => hnew (List.mem_cons_of_mem m hn),
    (Nat.mul_le_mul_right 256 hmono).trans hrecent⟩

namespace Window

/-- The number belongs to one of the two halves. -/
def Covers (w : Window) (n : UInt64) : Prop :=
  n.toNat / 256 * 256 ≤ w.base.toNat ∧ w.base.toNat ≤ n.toNat / 256 * 256 + 256

/-- The mark of a number in the half that it belongs to. -/
def sees (w : Window) (n : UInt64) : Bool := w.marks.has (place (w.base ≤ floorHalf n) n)

/-- The marks are those of zero and of the numbers in the list, as far as the window reaches. -/
def Shows (w : Window) (seen : List UInt64) : Prop :=
  ∀ n, w.Covers n → (w.sees n = true ↔ n = 0 ∨ n ∈ seen)

/-- A window that has seen exactly the numbers in the list. -/
structure Reflects (w : Window) (seen : List UInt64) : Prop where
  base_eq : w.base = floorHalf (highest seen)
  shows : w.Shows seen

variable {w : Window} {seen : List UInt64} {n : UInt64}

theorem place_inj {m : UInt64} (hb : w.base.toNat % 256 = 0) (hn : w.Covers n) (hm : w.Covers m)
    (h : place (w.base ≤ floorHalf n) n = place (w.base ≤ floorHalf m) m) : n = m := by
  have hv := congrArg Fin.val h
  obtain ⟨hn₁, hn₂⟩ := hn
  obtain ⟨hm₁, hm₂⟩ := hm
  simp only [place, le_floorHalf_iff, decide_eq_true_eq] at hv
  apply UInt64.toNat_inj.1
  split_ifs at hv <;> omega

theorem sees_mark {m : UInt64} (hb : w.base.toNat % 256 = 0) (hn : w.Covers n) (hm : w.Covers m) :
    ({ w with marks := w.marks.set (place (w.base ≤ floorHalf n) n) } : Window).sees m =
      (w.sees m || decide (n = m)) := by
  have hp : place (w.base ≤ floorHalf n) n = place (w.base ≤ floorHalf m) m ↔ n = m := by
    constructor
    · exact place_inj hb hn hm
    · rintro rfl
      rfl
  simp only [sees, Marks.has_set, hp]

theorem advance_of_le {floor : UInt64} (h : floor ≤ w.base) : w.advance floor = w := if_pos h

theorem base_advance (w : Window) (floor : UInt64) :
    (w.advance floor).base.toNat = max w.base.toNat floor.toNat := by
  rw [advance]
  split_ifs with h <;> rw [UInt64.le_iff_toNat_le] at h <;> simp <;> omega

/-- Moving up loses no number that is still covered: the old upper half becomes the new lower one,
or no number of the new halves has been seen. -/
theorem shows_advance (n : UInt64) (hb : w.base.toNat % 256 = 0)
    (hmax : ∀ m ∈ seen, m.toNat < w.base.toNat + 256) (hw : w.Shows seen) :
    (w.advance (floorHalf n)).Shows seen := by
  have hnew (m : UInt64) (hm : w.base.toNat + 256 ≤ m.toNat) : ¬(m = 0 ∨ m ∈ seen) := by
    rintro (rfl | h)
    · simp at hm
    · have := hmax m h
      omega
  have hn := toNat_floorHalf n
  intro m ⟨hm₁, hm₂⟩
  have hm := toNat_floorHalf m
  rw [base_advance] at hm₁ hm₂
  rw [advance]
  split_ifs with hle hslide <;> rw [UInt64.le_iff_toNat_le] at hle
  · exact hw m ⟨by omega, by omega⟩
  · rw [checkedAdd_eq_some_iff, toNat_halfWidth] at hslide
    by_cases hup : floorHalf n ≤ floorHalf m <;> have hle' := hup <;>
      rw [UInt64.le_iff_toNat_le] at hle'
    · simp [sees, Marks.has_slide, place, hup, hnew m (by omega)]
    · have hsame : w.base ≤ floorHalf m := UInt64.le_iff_toNat_le.2 (by omega)
      have hmod : m.toNat % 256 < 256 := by omega
      rw [← hw m ⟨by omega, by omega⟩]
      simp [sees, Marks.has_slide, place, hup, hsame, hmod, Nat.add_comm]
  · rw [checkedAdd_eq_some_iff, toNat_halfWidth] at hslide
    simp [sees, hnew m (by omega)]

theorem insert_of_old (h : n.toNat / 256 * 256 + 256 < w.base.toNat) : w.insert n = (false, w) := by
  refine if_pos ((saturatingAdd_lt_iff _ _ _).2 ?_)
  rw [toNat_floorHalf]
  exact h

theorem insert_of_not_old (h : w.base.toNat ≤ n.toNat / 256 * 256 + 256) :
    w.insert n = if (w.advance (floorHalf n)).sees n then (false, w.advance (floorHalf n))
      else (true, { w.advance (floorHalf n) with
        marks := (w.advance (floorHalf n)).marks.set
          (place ((w.advance (floorHalf n)).base ≤ floorHalf n) n) }) := by
  have hold : ¬ saturatingAdd (floorHalf n) halfWidth < w.base := by
    rw [saturatingAdd_lt_iff, toNat_floorHalf]
    exact Nat.not_lt.2 h
  have hhalf : ((w.advance (floorHalf n)).base ≤ floorHalf n) = (w.base ≤ floorHalf n) := by
    rw [UInt64.le_iff_toNat_le, UInt64.le_iff_toNat_le, base_advance]
    apply propext
    omega
  simp only [insert, sees, hold, hhalf, if_false]

theorem sees_advance_eq_false (h : ¬ floorHalf n ≤ w.base) :
    (w.advance (floorHalf n)).sees n = false := by
  have hp : ¬ (place true n).val < 256 := by simp [place]
  rw [advance]
  split_ifs
  · simp [sees, Marks.has_slide, hp]
  · simp [sees]

theorem insert_eq_of_false (h : (w.insert n).1 = false) : w.insert n = (false, w) := by
  by_cases hold : n.toNat / 256 * 256 + 256 < w.base.toNat
  · exact insert_of_old hold
  · rw [insert_of_not_old (by omega)] at h ⊢
    split_ifs at h ⊢ with hsees
    by_cases hle : floorHalf n ≤ w.base
    · rw [advance_of_le hle]
    · rw [sees_advance_eq_false hle] at hsees
      cases hsees

theorem insert_ne_of_true (h : (w.insert n).1 = true) : (w.insert n).2 ≠ w := by
  by_cases hold : n.toNat / 256 * 256 + 256 < w.base.toNat
  · rw [insert_of_old hold] at h
    cases h
  · rw [insert_of_not_old (by omega)] at h ⊢
    split_ifs at h ⊢ with hsees
    intro heq
    by_cases hle : floorHalf n ≤ w.base
    · rw [advance_of_le hle] at heq hsees
      have hmarks := congrArg (fun v => v.marks.has (place (w.base ≤ floorHalf n) n)) heq
      simp only [Marks.has_set, decide_true, Bool.or_true] at hmarks
      exact hsees hmarks.symm
    · have hbase := congrArg (fun v => v.base.toNat) heq
      rw [UInt64.le_iff_toNat_le] at hle
      have := base_advance w (floorHalf n)
      simp only at hbase
      omega

theorem reflects_fresh : fresh.Reflects [] where
  base_eq := rfl
  shows n hn := by
    have hn : n.toNat / 256 * 256 ≤ 0 := hn.1
    have hp : place (fresh.base ≤ floorHalf n) n = place true 0 ↔ n = 0 := by
      simp only [place, fresh, Fin.mk.injEq, ← UInt64.toNat_inj]
      simp
      omega
    simp only [sees, fresh, Marks.has_set, Marks.has_empty, Bool.false_or, decide_eq_true_eq,
      List.not_mem_nil, or_false]
    exact eq_comm.trans hp

namespace Reflects

theorem toNat_base (h : w.Reflects seen) : w.base.toNat = (highest seen).toNat / 256 * 256 := by
  rw [h.base_eq, toNat_floorHalf]

theorem lt_of_mem (h : w.Reflects seen) {m : UInt64} (hm : m ∈ seen) :
    m.toNat < w.base.toNat + 256 := by
  have := h.toNat_base
  have := le_highest hm
  omega

theorem shows_advance (h : w.Reflects seen) (n : UInt64) :
    (w.advance (floorHalf n)).Shows seen :=
  Window.shows_advance n (by have := h.toNat_base; omega) (fun _ => h.lt_of_mem) h.shows

/-- The condition under which a number is taken in, for a window that has seen `seen`. -/
theorem insert_iff (h : w.Reflects seen) : (w.insert n).1 = true ↔ Admissible seen n := by
  rw [Admissible, ← h.toNat_base]
  by_cases hold : n.toNat / 256 * 256 + 256 < w.base.toNat
  · rw [insert_of_old hold]
    simp
    omega
  · have hcov : (w.advance (floorHalf n)).Covers n := by
      rw [Covers, base_advance, toNat_floorHalf]
      omega
    have hsees := h.shows_advance n n hcov
    rw [insert_of_not_old (by omega)]
    split_ifs with hs
    · have := hsees.1 hs
      simp
      tauto
    · have := mt hsees.2 hs
      simp
      exact ⟨by tauto, by tauto, by omega⟩

theorem insert (h : w.Reflects seen) (hn : (w.insert n).1 = true) :
    (w.insert n).2.Reflects (n :: seen) := by
  have hb := h.toNat_base
  have hf := toNat_floorHalf n
  have hbase := base_advance w (floorHalf n)
  have hnew : w.base.toNat ≤ n.toNat / 256 * 256 + 256 := by
    have := (h.insert_iff.1 hn).2.2
    omega
  have hcov : (w.advance (floorHalf n)).Covers n := by
    rw [Covers, hbase]
    omega
  rw [insert_of_not_old hnew] at hn ⊢
  split_ifs at hn ⊢
  constructor
  · rw [← UInt64.toNat_inj, toNat_floorHalf, highest, toNat_max]
    change (w.advance (floorHalf n)).base.toNat = _
    omega
  · intro m hm
    rw [sees_mark (by omega) hcov hm, Bool.or_eq_true, decide_eq_true_eq,
      h.shows_advance n m hm, List.mem_cons, eq_comm (a := n)]
    tauto

end Reflects

end Window

end Adnl
