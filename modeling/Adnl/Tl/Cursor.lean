import Adnl.Tl.Value

/-!
Reading by position. A cursor keeps the whole data and how much of it has been consumed, where a
reader keeps only what is left.
-/
namespace Adnl.Tl

inductive Request
  | raw (count : Nat)
  | value (shape : Shape)
  | tag (expected : UInt32)
  | vectorLength
  | finish
deriving DecidableEq, Repr

inductive Answer
  | raw (b : Bytes)
  | value (v : Value)
  | vectorLength (count : Nat)
  /-- The id or the end that was asked for is there. -/
  | found
deriving DecidableEq, Repr

namespace Request

def read : Request → Reader Answer
  | .raw count => do return .raw (← Reader.raw count)
  | .value shape => do return .value (← shape.read)
  | .tag expected => do
    Reader.tag expected
    return .found
  | .vectorLength => do return .vectorLength (← Reader.vectorLength)
  | .finish => do
    Reader.finish
    return .found

/-- The answers to requests made in turn, each with the data left then. A failure does not end the
reading. -/
def answers : List Request → Bytes → List (Except Failure Answer × Bytes)
  | [], _ => []
  | q :: qs, s => q.read s :: answers qs (q.read s).2

end Request

structure Cursor where
  data : Bytes
  offset : Nat
deriving DecidableEq, Repr

namespace Cursor

/-- How a request ends at a cursor; nothing if the cursor stands beyond the end of its data, so that
there is no number of bytes that remain. -/
abbrev Outcome := Option (Except Failure Answer × Cursor)

def rest (c : Cursor) : Bytes := c.data.drop c.offset

def remaining? (c : Cursor) : Option Nat :=
  if c.offset ≤ c.data.length then some (c.data.length - c.offset) else none

def advance (c : Cursor) (n : Nat) : Cursor := { c with offset := c.offset + n }

def refuse (c : Cursor) (fault : TlFault) : Outcome := some (.error (.refused (.tl fault)), c)

/-- Consumes `n` bytes. Whether they are any good is seen only then. -/
def take (c : Cursor) (n : Nat) (parse : Bytes → Except Failure Answer) : Outcome := do
  let remaining ← c.remaining?
  if remaining < n then c.refuse (.short n remaining)
  else return (parse (Bytes.slice c.data c.offset n), c.advance n)

/-- The content of a byte string behind `header` bytes of length. -/
def content (c : Cursor) (header length : Nat) : Outcome := do
  let remaining ← c.remaining?
  let consumed := bytesLength length
  if remaining < consumed then c.refuse (.short consumed remaining)
  else if c.data.length < c.offset + header + length then return (.error .outOfRange, c)
  else
    let data := Bytes.slice c.data (c.offset + header) length
    return (.ok (.value (.bytes data)), c.advance consumed)

/-- A byte string with its length in front. In the long form the length is a word less its lowest
byte. -/
def byteString (c : Cursor) : Outcome :=
  match c.data[c.offset]? with
  | none => c.refuse .absent
  | some first =>
    if first < 254 then c.content 1 first.toNat
    else if first = 254 then
      let word := Bytes.slice c.data c.offset 4
      if word.length < 4 then c.refuse .shortLength
      else c.content 4 (Bytes.toNatLE word / 256)
    else c.refuse .reservedLength

end Cursor

def wordOf (b : Bytes) : UInt32 := UInt32.ofNat (Bytes.toNatLE b)

def arrayOf (n : Nat) (make : Vector UInt8 n → Value) (b : Bytes) : Except Failure Answer :=
  match Bytes.toVector? n b with
  | some v => .ok (.value (make v))
  | none => .error .outOfRange

namespace Cursor

def ask (c : Cursor) : Request → Outcome
  | .raw count => c.take count fun b => .ok (.raw b)
  | .value .u32 => c.take 4 fun b => .ok (.value (.u32 (wordOf b)))
  | .value .i32 => c.take 4 fun b => .ok (.value (.i32 (wordOf b).toInt32))
  | .value .u64 => c.take 8 fun b => .ok (.value (.u64 (UInt64.ofNat (Bytes.toNatLE b))))
  | .value .int128 => c.take 16 (arrayOf 16 .int128)
  | .value .int256 => c.take 32 (arrayOf 32 .int256)
  | .value .bytes => c.byteString
  | .tag expected => c.take 4 fun b =>
    if wordOf b = expected then .ok .found
    else .error (.refused (.unexpectedConstructor (wordOf b)))
  | .vectorLength => c.take 4 fun b =>
    if (wordOf b).toNat ≤ Reader.maxVectorLength then .ok (.vectorLength (wordOf b).toNat)
    else .error (.refused (.tl (.longVector (wordOf b).toNat)))
  | .finish => do
    let remaining ← c.remaining?
    if remaining = 0 then return (.ok .found, c) else c.refuse (.trailing remaining)

/-- Requests made in turn: the answers, and where the cursor stands after each. -/
def visits : List Request → Cursor → Option (List (Except Failure Answer × Cursor))
  | [], _ => some []
  | q :: qs, c => do
    let (answer, next) ← c.ask q
    let others ← visits qs next
    return (answer, next) :: others

end Cursor

end Adnl.Tl
