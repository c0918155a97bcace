import Adnl.Host.Run

/-!
Hosts wired to each other. A datagram for an address that a host is bound to arrives there; any
other datagram is captured. What has something to do waits in one line and is served in turn.
-/
namespace Adnl

inductive Link
  | normal
  | duplicate
  | drop
deriving DecidableEq, Repr

def Link.copies : Link → Nat
  | .normal => 1
  | .duplicate => 2
  | .drop => 0

/-- A datagram for nobody's address. -/
structure Captured where
  source : Address
  target : Address
  data : Bytes
deriving DecidableEq, Repr

structure Network where
  hosts : List Host := []
  /-- Milliseconds since the beginning. -/
  elapsed : Nat := 0
  /-- The date, in seconds since 1970, at which it was last set. -/
  origin : Int := 0
  /-- When it was last set. -/
  originAt : Nat := 0
  link : Link := .normal
  captured : List Captured := []
  /-- What has something to do, in order, each named by its host. -/
  agenda : List (Nat × Activity) := []

namespace Network

/-- The date as it is sent: cut to 32 bits, and zero before 1970. -/
def date (n : Network) : Int32 :=
  let seconds := n.origin + Int.ofNat ((n.elapsed - n.originAt) / 1000)
  if seconds < 0 then 0 else Int32.ofInt seconds

def moment (n : Network) : Moment := ⟨n.elapsed, n.date⟩

/-- Lines something up, unless it is waiting already. -/
def schedule (n : Network) (k : Nat) (a : Activity) : Network :=
  if (k, a) ∈ n.agenda then n else { n with agenda := n.agenda ++ [(k, a)] }

def hostAt? (n : Network) (a : Address) : Option Nat := n.hosts.findIdx? (·.address = a)

/-- A datagram gets to an address; whether a host is there. -/
def arrive (n : Network) (source target : Address) (data : Bytes) : Bool × Network :=
  match n.hostAt? target with
  | none => (false, { n with captured := n.captured ++ [⟨source, target, data⟩] })
  | some k =>
    (true, { n with hosts := n.hosts.modify k (·.arrive ⟨source, data⟩) }.schedule k .route)

/-- Sends a datagram over the link. Nothing can be sent to port zero. -/
def send (n : Network) (source target : Address) (data : Bytes) : Network :=
  if target.port = 0 then n
  else (List.replicate n.link.copies ()).foldl (fun n _ => (n.arrive source target data).2) n

def absorb (k : Nat) (source : Address) (n : Network) : Effect → Network
  | .wake a => n.schedule k a
  | .send target data => n.send source target data

def putHost (n : Network) (k : Nat) (h : Host) : Network :=
  h.effects.foldl (absorb k h.address)
    { n with hosts := n.hosts.set k { h with effects := [] } }

def onHost {α : Type} (n : Network) (k : Nat) (absent : α) (f : Host → α × Host) : α × Network :=
  match n.hosts[k]? with
  | none => (absent, n)
  | some h =>
    let (a, h) := f h
    (a, n.putHost k h)

def changeHost (n : Network) (k : Nat) (f : Host → Host) : Network :=
  (n.onHost k () fun h => ((), f h)).2

def bind (n : Network) (address : Address) (config : Config) (supplies : Nat → Supply) :
    Except Error (Nat × Network) :=
  match n.hostAt? address with
  | some _ => .error .io
  | none =>
    let k := n.hosts.length
    let h := Host.bind address config supplies n.elapsed
    .ok (k, { n with hosts := n.hosts ++ [h] }.putHost k h)

def takeCaptured (n : Network) : List Captured × Network :=
  (n.captured, { n with captured := [] })

def takeEvents (n : Network) : List (Nat × Event) × Network :=
  (n.hosts.zipIdx.flatMap fun (h, k) => h.events.map fun e => (k, e),
    { n with hosts := n.hosts.map fun h => { h with events := [] } })

def setDate (n : Network) (seconds : Int) : Network :=
  { n with origin := seconds, originAt := n.elapsed }

end Network

end Adnl
