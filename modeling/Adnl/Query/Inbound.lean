import Adnl.Message
import Adnl.Query.Slot

/-! Queries that the other side has asked, and the handlers that may answer them. -/
namespace Adnl

/-- What a handler does with a query. -/
structure Reply where
  /-- The answers that it leaves at once. -/
  answers : List Bytes := []
  /-- How many copies it keeps, to answer later. -/
  kept : Nat := 0
deriving DecidableEq, Repr

namespace Reply

def answer (data : Bytes) : Reply := { answers := [data] }

def later : Reply := { kept := 1 }

def nothing : Reply := {}

end Reply

inductive InboundQuery.Stage
  | fresh
  | waiting (deadline : Nat)
  | done
deriving DecidableEq, Repr

structure InboundQuery where
  conversation : Nat
  id : Bytes32
  data : Bytes
  slot : ReplySlot := {}
  /-- How many keep it. -/
  holders : Nat := 0
  stage : InboundQuery.Stage := .fresh
deriving DecidableEq, Repr

namespace InboundQuery

def present (q : InboundQuery) (handler : Bytes → Reply) : InboundQuery :=
  let reply := handler q.data
  { q with slot := q.slot.leave reply.answers, holders := q.holders + reply.kept }

/-- The handlers see the query one after the other; then the wait begins. -/
def presentAll (q : InboundQuery) (handlers : List (Bytes → Reply)) (deadline : Nat) :
    InboundQuery :=
  { handlers.foldl present q with stage := .waiting deadline }

/-- Nobody waits for an answer any more. -/
def drop (q : InboundQuery) : InboundQuery := { q with slot := q.slot.abandon, stage := .done }

/--
Looks whether the wait is over. It ends when the conversation is closed, then when there is an
answer, then when nobody is left to give one, then by time. An answer within the limit is sent.
-/
def conclude (q : InboundQuery) (closed : Bool) (now limit : Nat) : Option Message × InboundQuery :=
  match q.stage with
  | .waiting deadline =>
    if closed then (none, q.drop)
    else
      match q.slot.answer with
      | some data =>
        let m := Message.answer q.id data
        (if m.encodedLength ≤ limit then some m else none, q.drop)
      | none =>
        if q.holders = 0 || deadline ≤ now then (none, q.drop) else (none, q)
  | _ => (none, q)

def copy (q : InboundQuery) : InboundQuery := { q with holders := q.holders + 1 }

def letGo (q : InboundQuery) : InboundQuery := { q with holders := q.holders - 1 }

end InboundQuery

end Adnl
