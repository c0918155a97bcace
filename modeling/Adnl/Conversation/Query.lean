import Adnl.Conversation.Basic

/-! Asking queries in a conversation. -/
namespace Adnl.Turn

def withQueries (t : Turn) (queries : QueryTable) : Turn :=
  { t with conversation := { t.conversation with queries } }

/-- Ends a call. A query that still waits for room in the outbox is taken back. -/
def endCall (t : Turn) (id : Bytes32) (result : Except Error Bytes) : Turn :=
  let t := t.withQueries (t.conversation.queries.finish id result)
  { t with conversation := { t.conversation with outbox := t.conversation.outbox.withdraw id } }

def await (t : Turn) (now : Nat) (id : Bytes32) : Turn :=
  match t.conversation.queries.get? id with
  | none => t
  | some call =>
    match call.outcome? t.conversation.isClosed now with
    | none => t
    | some result => t.endCall id result

/-- Puts the query of a call into the outbox, unless it is too large. -/
def beginCall (t : Turn) (now : Nat) (call : Call) : Turn :=
  let m := Message.query call.id call.query
  match t.conversation.checkSize m with
  | .error e => t.endCall call.id (.error e)
  | .ok () =>
    let t := t.withQueries (t.conversation.queries.start call.id now)
    (if t.conversation.isClosed then t else t.offer m).await now call.id

def pursue (t : Turn) (now : Nat) (id : Bytes32) : Turn :=
  match t.conversation.queries.get? id with
  | none => t
  | some call =>
    if call.result.isSome then t
    else if call.deadline.isSome then t.await now id
    else t.beginCall now call

end Adnl.Turn
