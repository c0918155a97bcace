/-! Announcements that have not been looked at. When there are too many the oldest are lost. -/
namespace Adnl

structure Backlog (α : Type) where
  capacity : Nat
  entries : List α := []
  /-- How many have been lost since the last look. -/
  lost : Nat := 0
deriving Repr

namespace Backlog

/-- The capacity is at least one and a power of two. -/
def ofCapacity {α : Type} (n : Nat) : Backlog α := { capacity := (max n 1).nextPowerOfTwo }

def push {α : Type} (b : Backlog α) (a : α) : Backlog α :=
  if b.entries.length < b.capacity then { b with entries := b.entries ++ [a] }
  else { b with entries := b.entries.drop 1 ++ [a], lost := b.lost + 1 }

def clear {α : Type} (b : Backlog α) : Backlog α := { b with entries := [], lost := 0 }

end Backlog

end Adnl
