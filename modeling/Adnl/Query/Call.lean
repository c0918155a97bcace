import Adnl.Error

/-!
The queries that this side of a conversation has asked. The table of open ids is what answers are
matched with; every call takes its own id out of it when it ends.
-/
namespace Adnl

/-- Somebody's wait for the answer to one query. -/
structure Call where
  id : Bytes32
  query : Bytes
  /-- How long to wait, in milliseconds. -/
  timeout : Nat
  /-- When the wait is over; nothing before the query has been put into the outbox. -/
  deadline : Option Nat := none
  reply : Option Bytes := none
  result : Option (Except Error Bytes) := none

structure QueryTable where
  /-- The ids that an answer is expected for. -/
  pending : List Bytes32 := []
  calls : List Call := []

namespace QueryTable

def get? (t : QueryTable) (id : Bytes32) : Option Call := t.calls.find? (·.id = id)

def modify (t : QueryTable) (id : Bytes32) (f : Call → Call) : QueryTable :=
  { t with calls := t.calls.map fun c => if c.id = id then f c else c }

def add (t : QueryTable) (c : Call) : QueryTable := { t with calls := t.calls ++ [c] }

def start (t : QueryTable) (id : Bytes32) (now : Nat) : QueryTable :=
  { t.modify id fun c => { c with deadline := some (now + c.timeout) } with
    pending := id :: t.pending }

/-- Hands an answer to the call that expects it; whether there is one. -/
def answer (t : QueryTable) (id : Bytes32) (data : Bytes) : Bool × QueryTable :=
  if id ∈ t.pending then
    (true, { t.modify id fun c => { c with reply := some data } with
      pending := t.pending.filter (· ≠ id) })
  else (false, t)

def finish (t : QueryTable) (id : Bytes32) (result : Except Error Bytes) : QueryTable :=
  { t.modify id fun c => { c with result := c.result.or (some result) } with
    pending := t.pending.filter (· ≠ id) }

end QueryTable

namespace Call

/-- How a call that has begun ends now, if it does. An answer goes before the end of the wait. Either
of them races with the closing, which is taken first here; `Turn.awaitLate` takes the other side. -/
def outcome? (c : Call) (closed : Bool) (now : Nat) : Option (Except Error Bytes) :=
  if closed then some (.error .channelClosed)
  else
    match c.reply with
    | some data => some (.ok data)
    | none => if c.deadline.any (· ≤ now) then some (.error .queryTimeout) else none

end Call

end Adnl
