import Adnl.Error
import Adnl.Tl.Write

/-!
Reading. A reader takes a value off the front of the data. What it consumed before it failed stays
consumed.
-/
namespace Adnl

inductive Failure
  | refused (error : Error)
  /-- The content of a byte string would lie beyond the end of the data. -/
  | outOfRange
deriving DecidableEq, Repr

/-- A reader gives a value or a failure, and the data left. -/
def Reader (α : Type) : Type := Bytes → Except Failure α × Bytes

namespace Reader

/-- Takes a value off and goes on with the reader that it calls for. -/
def andThen {α β : Type} (r : Reader α) (f : α → Reader β) : Reader β := fun s =>
  match r s with
  | (.ok a, s) => f a s
  | (.error e, s) => (.error e, s)

instance : Monad Reader where
  pure a := fun s => (.ok a, s)
  bind := andThen

/-- Fails and consumes nothing. -/
def fail {α : Type} (e : Error) : Reader α := fun s => (.error (.refused e), s)

def raw (n : Nat) : Reader Bytes := fun s =>
  if s.length < n then fail (.tl (.short n s.length)) s else (.ok (s.take n), s.drop n)

def vector (n : Nat) : Reader (Vector UInt8 n) := fun s =>
  match Bytes.toVector? n (s.take n) with
  | some v => (.ok v, s.drop n)
  | none => fail (.tl (.short n s.length)) s

def u32 : Reader UInt32 := do return UInt32.ofNat (Bytes.toNatLE (← raw 4))

def u64 : Reader UInt64 := do return UInt64.ofNat (Bytes.toNatLE (← raw 8))

def i32 : Reader Int32 := do return (← u32).toInt32

/-- A constructor id that has to be the expected one. -/
def tag (expected : UInt32) : Reader Unit := do
  let found ← u32
  if found = expected then return () else fail (.unexpectedConstructor found)

def maxVectorLength : Nat := 1024

def vectorLength : Reader Nat := do
  let count ← u32
  if count.toNat ≤ maxVectorLength then return count.toNat
  else fail (.tl (.longVector count.toNat))

/--
The content of a byte string behind `header` bytes of length. The size consumed is that of a string
of this length as it is written, whichever form its length was in.
-/
def content (header length : Nat) : Reader Bytes := fun s =>
  let consumed := Tl.bytesLength length
  if s.length < consumed then fail (.tl (.short consumed s.length)) s
  else if s.length < header + length then (.error .outOfRange, s)
  else (.ok (Bytes.slice s header length), s.drop consumed)

def byteString : Reader Bytes := fun s =>
  match s with
  | [] => fail (.tl .absent) s
  | first :: rest =>
    if first < 254 then content 1 first.toNat s
    else if first = 254 then
      match rest with
      | a :: b :: c :: _ => content 4 (Bytes.toNatLE [a, b, c]) s
      | _ => fail (.tl .shortLength) s
    else fail (.tl .reservedLength) s

/-- Succeeds at the end of the data only. -/
def finish : Reader Unit := fun s =>
  if s = [] then (.ok (), s) else fail (.tl (.trailing s.length)) s

def times {α : Type} (r : Reader α) : Nat → Reader (List α)
  | 0 => pure []
  | n + 1 => do
    let a ← r
    return a :: (← times r n)

/-- Reads when a field is there. -/
def optional {α : Type} (present : Bool) (r : Reader α) : Reader (Option α) :=
  if present then do return some (← r) else return none

/-- Reads a value that has to be the whole of the data. -/
def whole {α : Type} (r : Reader α) (data : Bytes) : Except Failure α :=
  (do let a ← r; finish; return a : Reader α) data |>.1

end Reader

end Adnl
