import Adnl.Bytes

/-! Where handlers leave the answer to a query. -/
namespace Adnl

/-- The one reply that all holders of a query share. -/
structure ReplySlot where
  taken : Bool := false
  /-- Nobody waits for the answer any more. -/
  abandoned : Bool := false
  answer : Option Bytes := none
deriving DecidableEq, Repr

namespace ReplySlot

/-- Leaves an answer; whether it is the first one and somebody waits for it. -/
def respond (s : ReplySlot) (answer : Bytes) : Bool × ReplySlot :=
  if s.taken then (false, s)
  else if s.abandoned then (false, { s with taken := true })
  else (true, { s with taken := true, answer := some answer })

def leave (s : ReplySlot) (answers : List Bytes) : ReplySlot :=
  answers.foldl (fun s answer => (s.respond answer).2) s

def abandon (s : ReplySlot) : ReplySlot := { s with abandoned := true }

end ReplySlot

end Adnl
