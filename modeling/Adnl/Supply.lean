import Adnl.Bytes

/-! Random values, in the order in which they are drawn. -/
namespace Adnl

/-- Three endless sequences of random values and how far each has been used. -/
structure Supply where
  key : Nat → Bytes32
  fill : Nat → Bytes32
  coin : Nat → Bool
  keysDrawn : Nat := 0
  fillsDrawn : Nat := 0
  coinsDrawn : Nat := 0

namespace Supply

def drawKey (s : Supply) : Bytes32 × Supply :=
  (s.key s.keysDrawn, { s with keysDrawn := s.keysDrawn + 1 })

def drawFill (s : Supply) : Bytes32 × Supply :=
  (s.fill s.fillsDrawn, { s with fillsDrawn := s.fillsDrawn + 1 })

/-- Seven or fifteen random bytes. -/
def drawPadding (s : Supply) : Bytes × Supply :=
  let length := if s.coin s.coinsDrawn then 7 else 15
  let (bytes, s) := { s with coinsDrawn := s.coinsDrawn + 1 }.drawFill
  (bytes.toList.take length, s)

end Supply

end Adnl
