import Adnl.Bytes

/-! A message that arrives in parts: the bytes so far and the ranges still missing. -/
namespace Adnl

/-- The positions from `start` up to, not including, `stop`. -/
structure Gap where
  start : Nat
  stop : Nat
deriving DecidableEq, Repr

namespace Gap

def meet (g h : Gap) : Gap := ⟨max g.start h.start, min g.stop h.stop⟩

def isEmpty (g : Gap) : Bool := g.stop ≤ g.start

def size (g : Gap) : Nat := g.stop - g.start

/-- What is left of a gap when a range has been filled. -/
def minus (g h : Gap) : List Gap :=
  let m := g.meet h
  if m.isEmpty then [g]
  else [⟨g.start, m.start⟩, ⟨m.stop, g.stop⟩].filter fun r => !r.isEmpty

end Gap

structure Transfer where
  total : Nat
  /-- All bytes; those not yet known are zero. -/
  buffer : Bytes
  /-- Ranges still missing, in increasing order. -/
  gaps : List Gap
  /-- When it may be dropped, in milliseconds of the clock. -/
  deadline : Nat
deriving DecidableEq, Repr

namespace Transfer

def start (total deadline : Nat) : Transfer :=
  ⟨total, List.replicate total 0, [⟨0, total⟩], deadline⟩

/-- Replaces the bytes from a position on. -/
def splice (buffer : Bytes) (start : Nat) (data : Bytes) : Bytes :=
  buffer.take start ++ (data ++ buffer.drop (start + data.length))

/-- Copies the bytes of a part that lie in gaps; also tells how many they are. -/
def fill (t : Transfer) (start : Nat) (data : Bytes) : Nat × Transfer :=
  let range : Gap := ⟨start, start + data.length⟩
  let pieces := (t.gaps.map (·.meet range)).filter fun g => !g.isEmpty
  let buffer := pieces.foldl
    (fun b g => splice b g.start (Bytes.slice data (g.start - start) g.size)) t.buffer
  (Bytes.total (pieces.map Gap.size),
    { t with buffer, gaps := t.gaps.flatMap (·.minus range) })

def isComplete (t : Transfer) : Bool := t.gaps.isEmpty

end Transfer

end Adnl
