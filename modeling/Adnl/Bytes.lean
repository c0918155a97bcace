/-! Byte strings: fixed widths, little-endian numbers and hexadecimal text. -/
namespace Adnl

abbrev Bytes := List UInt8

abbrev Bytes32 := Vector UInt8 32

abbrev Bytes16 := Vector UInt8 16

namespace Bytes

/-- The bytes as a vector, when there are exactly `n` of them. -/
def toVector? (n : Nat) (b : Bytes) : Option (Vector UInt8 n) :=
  if h : b.length = n then some ⟨b.toArray, by simpa using h⟩ else none

/-- The `n` low bytes of a number, least significant first. -/
def ofNatLE : Nat → Nat → Bytes
  | 0, _ => []
  | n + 1, v => UInt8.ofNat v :: ofNatLE n (v / 256)

/-- The number whose bytes these are, least significant first. -/
def toNatLE : Bytes → Nat
  | [] => 0
  | b :: r => b.toNat + 256 * toNatLE r

def ofNatBE (n v : Nat) : Bytes := (ofNatLE n v).reverse

def toNatBE (b : Bytes) : Nat := b.foldl (fun v d => 256 * v + d.toNat) 0

def total : List Nat → Nat
  | [] => 0
  | n :: r => n + total r

/-- Byte-wise exclusive or, as long as the shorter operand. -/
def xor (a b : Bytes) : Bytes := List.zipWith (· ^^^ ·) a b

/-- Consecutive pieces of `n` bytes, the last one possibly shorter. -/
def chunks (n : Nat) (b : Bytes) : List Bytes :=
  if n = 0 ∨ b = [] then [] else b.take n :: chunks n (b.drop n)
termination_by b.length
decreasing_by
  rename_i h
  have : 0 < b.length := List.length_pos_iff.2 (fun e => h (.inr e))
  simp only [List.length_drop]
  omega

/-- The `count` bytes from `start` on, as far as there are any. -/
def slice (b : Bytes) (start count : Nat) : Bytes := (b.drop start).take count

private def hexDigit (d : Nat) : Char := Char.ofNat (if d < 10 then 48 + d else 87 + d)

def toHex (b : Bytes) : String :=
  String.ofList (b.flatMap fun d => [hexDigit (d.toNat / 16), hexDigit (d.toNat % 16)])

private def hexValue? (c : Char) : Option Nat :=
  if '0' ≤ c ∧ c ≤ '9' then some (c.toNat - 48)
  else if 'a' ≤ c ∧ c ≤ 'f' then some (c.toNat - 87)
  else if 'A' ≤ c ∧ c ≤ 'F' then some (c.toNat - 55)
  else none

def ofHex? (s : String) : Option Bytes :=
  go s.toList []
where
  go : List Char → Bytes → Option Bytes
    | [], acc => some acc.reverse
    | [_], _ => none
    | hi :: lo :: r, acc => do
      let h ← hexValue? hi
      let l ← hexValue? lo
      go r (UInt8.ofNat (16 * h + l) :: acc)

@[simp] theorem length_ofNatLE (n v : Nat) : (ofNatLE n v).length = n := by
  induction n generalizing v with
  | zero => rfl
  | succ n ih => simp [ofNatLE, ih]

@[simp] theorem total_append (a b : List Nat) : total (a ++ b) = total a + total b := by
  induction a with
  | nil => simp [total]
  | cons n a ih => simp [total, ih, Nat.add_assoc]

theorem length_flatMap {α : Type} (f : α → Bytes) (l : List α) :
    (l.flatMap f).length = total (l.map fun a => (f a).length) := by
  induction l with
  | nil => rfl
  | cons a l ih => simp [total, ih]

theorem toNatLE_ofNatLE (n v : Nat) : toNatLE (ofNatLE n v) = v % Nat.pow 256 n := by
  induction n generalizing v with
  | zero => simp [ofNatLE, toNatLE, Nat.mod_one]
  | succ n ih =>
    have h : v % Nat.pow 256 (n + 1) = v % 256 + 256 * (v / 256 % Nat.pow 256 n) := by
      rw [show Nat.pow 256 (n + 1) = 256 * Nat.pow 256 n from Nat.mul_comm _ _, Nat.mod_mul]
    rw [ofNatLE, toNatLE, ih, h, UInt8.toNat_ofNat']

theorem toNatLE_lt (b : Bytes) : toNatLE b < Nat.pow 256 b.length := by
  induction b with
  | nil => simp [toNatLE]
  | cons d r ih =>
    have := d.toNat_lt
    have hp : Nat.pow 256 (d :: r).length = Nat.pow 256 r.length * 256 := rfl
    rw [toNatLE, hp]
    omega

theorem toNat_getElem {l : Bytes} {i : Nat} (h : i < l.length) :
    l[i].toNat = toNatLE l / Nat.pow 256 i % 256 := by
  induction l generalizing i with
  | nil => cases h
  | cons d l ih =>
    have hd := d.toNat_lt
    cases i with
    | zero =>
      simp only [List.getElem_cons_zero, toNatLE, Nat.pow_eq, Nat.pow_zero]
      omega
    | succ i =>
      have hp : Nat.pow 256 (i + 1) = 256 * Nat.pow 256 i := Nat.mul_comm _ _
      have hq : (d.toNat + 256 * toNatLE l) / 256 = toNatLE l := by omega
      rw [List.getElem_cons_succ, ih (Nat.lt_of_succ_lt_succ h), toNatLE, hp,
        ← Nat.div_div_eq_div_mul, hq]

theorem toNatLE_set {l : Bytes} {i : Nat} (h : i < l.length) (x : UInt8) :
    toNatLE (l.set i x) + Nat.pow 256 i * l[i].toNat =
      toNatLE l + Nat.pow 256 i * x.toNat := by
  induction l generalizing i with
  | nil => cases h
  | cons d l ih =>
    cases i with
    | zero =>
      simp only [List.set_cons_zero, List.getElem_cons_zero, toNatLE, Nat.pow_eq, Nat.pow_zero]
      omega
    | succ i =>
      have hp : Nat.pow 256 (i + 1) = 256 * Nat.pow 256 i := Nat.mul_comm _ _
      have hi := ih (Nat.lt_of_succ_lt_succ h)
      simp only [List.set_cons_succ, List.getElem_cons_succ, toNatLE, hp, Nat.mul_assoc]
      omega

theorem toVector?_toList {n : Nat} (v : Vector UInt8 n) : toVector? n v.toList = some v := by
  simp [toVector?, Vector.toList]

theorem toList_of_toVector? {n : Nat} {b : Bytes} {v : Vector UInt8 n}
    (h : toVector? n b = some v) : v.toList = b := by
  unfold toVector? at h
  split at h
  · cases h; simp [Vector.toList]
  · cases h

@[simp] theorem length_xor (a b : Bytes) : (xor a b).length = min a.length b.length := by
  simp [xor]

theorem xor_xor_cancel {a b : Bytes} (h : a.length ≤ b.length) : xor (xor a b) b = a := by
  induction a generalizing b with
  | nil => simp [xor]
  | cons x a ih =>
    cases b with
    | nil => simp at h
    | cons y b =>
      have := ih (b := b) (by simpa using h)
      simp only [xor, List.zipWith_cons_cons] at this ⊢
      rw [this, UInt8.xor_assoc, UInt8.xor_self, UInt8.xor_zero]

end Bytes

end Adnl
