/-!
Sequence numbers seen or issued in one direction of a pair.

The receiving side keeps a window of two halves of 256 numbers. The upper half holds the multiple
of 256 at or below the highest number, the lower half the 256 numbers before it.
-/
namespace Adnl

/-- Numbers in one half of a window. -/
def halfWidth : UInt64 := 256

/-- The multiple of the half's width at or below a number. -/
def floorHalf (n : UInt64) : UInt64 := n / halfWidth * halfWidth

def saturatingAdd (a b : UInt64) : UInt64 := if a + b < a then 0xffffffffffffffff else a + b

def checkedAdd (a b : UInt64) : Option UInt64 := if a + b < a then none else some (a + b)

/-- A bit for each of 512 places, sixty-four to a word. -/
abbrev Marks := Vector UInt64 8

namespace Marks

def mask (i : Fin 512) : UInt64 := 1 <<< UInt64.ofNat (i % 64)

def word (i : Fin 512) : Fin 8 := ⟨i / 64, by omega⟩

def empty : Marks := Vector.replicate 8 0

def has (m : Marks) (i : Fin 512) : Bool := m[word i] &&& mask i != 0

def set (m : Marks) (i : Fin 512) : Marks := Vector.set m (word i) (m[word i] ||| mask i)

/-- The upper half becomes the lower one. -/
def slide (m : Marks) : Marks := Vector.ofFn fun i => if h : i.val < 4 then m[i.val + 4] else 0

end Marks

/-- Which of `base - 256, …, base + 255` have been seen. -/
structure Window where
  /-- The first number of the upper half. -/
  base : UInt64
  /-- The lower half, then the upper one. -/
  marks : Marks
deriving DecidableEq, Repr

namespace Window

/-- The place of a number in the upper half, or in the lower one. -/
def place (upper : Bool) (n : UInt64) : Fin 512 :=
  ⟨(if upper then 256 else 0) + n.toNat % 256, by split <;> omega⟩

/-- Zero counts as seen, so that it is never accepted. -/
def fresh : Window := ⟨0, Marks.empty.set (place true 0)⟩

/-- Moves up to the half of a number above the window: the upper half becomes the lower one when
it lies directly below. -/
def advance (w : Window) (floor : UInt64) : Window :=
  if floor ≤ w.base then w
  else if checkedAdd w.base halfWidth = some floor then ⟨floor, w.marks.slide⟩
  else ⟨floor, .empty⟩

/-- Marks a number as seen. Whether it was neither too old nor seen before. -/
def insert (w : Window) (n : UInt64) : Bool × Window :=
  let floor := floorHalf n
  if saturatingAdd floor halfWidth < w.base then (false, w)
  else
    let i := place (w.base ≤ floor) n
    let w := w.advance floor
    if w.marks.has i then (false, w) else (true, { w with marks := w.marks.set i })

end Window

structure History where
  /-- Only the receiving side has a window; the sending side just counts. -/
  window : Option Window
  /-- The highest number seen or issued. -/
  last : UInt64
deriving DecidableEq, Repr

namespace History

def sender : History := ⟨none, 0⟩

def receiver : History := ⟨some .fresh, 0⟩

def reset (h : History) : History := ⟨h.window.map fun _ => .fresh, 0⟩

/-- Issues the next number; the largest one is issued again and again. -/
def next (h : History) : UInt64 × History :=
  let n := saturatingAdd h.last 1
  (n, { h with last := n })

def deliver (h : History) (n : UInt64) : Bool × History :=
  match h.window with
  | none => (true, { h with last := max h.last n })
  | some w =>
    match w.insert n with
    | (false, w) => (false, { h with window := some w })
    | (true, w) => (true, ⟨some w, max h.last n⟩)

end History

end Adnl
