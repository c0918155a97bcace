import Adnl.Address.Basic
import Adnl.Config

/-!
How many datagrams an address may send. Every address has a theoretical arrival time: each datagram
let through moves it on by one interval, and it may run ahead of the clock by one second's worth.
-/
namespace Adnl

structure Limiter where
  /-- Datagrams per second; zero for no limit. -/
  perSecond : Nat
  /-- The theoretical arrival times, in nanoseconds. -/
  arrivals : List (Ip × Nat) := []
deriving DecidableEq, Repr

namespace Limiter

def ofRate (r : RateLimit) : Limiter := { perSecond := if r.enabled then r.perSecond else 0 }

/-- Nanoseconds between datagrams at the full rate. -/
def interval (l : Limiter) : Nat := 1000000000 / l.perSecond

/-- How far the theoretical arrival time may be ahead. -/
def tolerance (l : Limiter) : Nat := l.interval * l.perSecond

def arrival (l : Limiter) (now : Nat) (ip : Ip) : Nat :=
  (l.arrivals.lookup ip).getD (now + l.interval)

def put (l : Limiter) (ip : Ip) (arrival : Nat) : Limiter :=
  { l with arrivals := (ip, arrival) :: l.arrivals.filter (·.1 ≠ ip) }

def check (l : Limiter) (now : Nat) (ip : Ip) : Bool × Limiter :=
  let arrival := l.arrival now ip
  if l.perSecond = 0 then (true, l)
  else if arrival - l.tolerance ≤ now then (true, l.put ip (max arrival now + l.interval))
  else (false, l)

end Limiter

end Adnl
