import Adnl.Error

/-! Which ids a host receives datagrams for. -/
namespace Adnl

/-- An entry: what it stands for and which registration owns it. -/
structure Registration where
  kind : RouteKind
  /-- Told apart from every other registration, past ones included. -/
  ticket : Nat
deriving DecidableEq, Repr

structure RouteTable where
  entries : List (ShortId × Registration) := []
  issued : Nat := 0
deriving DecidableEq, Repr

namespace RouteTable

def get? (t : RouteTable) (id : ShortId) : Option Registration := t.entries.lookup id

def count (t : RouteTable) (kind : RouteKind) : Nat :=
  t.entries.countP fun e => e.2.kind = kind

/-- Claims an id that is free and gives out a ticket for it. -/
def register (t : RouteTable) (id : ShortId) (kind : RouteKind) : Except Error (Nat × RouteTable) :=
  match t.get? id with
  | some r => .error (.idCollision id r.kind)
  | none => .ok (t.issued, ⟨(id, ⟨kind, t.issued⟩) :: t.entries, t.issued + 1⟩)

/-- Frees an id, unless it has been claimed again since. -/
def release (t : RouteTable) (id : ShortId) (ticket : Nat) : RouteTable :=
  { t with entries := t.entries.filter fun e => !(e.1 = id && e.2.ticket = ticket) }

end RouteTable

end Adnl
