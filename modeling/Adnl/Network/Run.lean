import Adnl.Network.Basic

/-! The course of time in a network. -/
namespace Adnl.Network

def step (K : KeyScheme) (n : Network) : Network :=
  match n.agenda with
  | [] => n
  | (k, a) :: agenda =>
    { n with agenda }.changeHost k fun h => h.run K n.moment a

/-- Serves everybody in line, up to the given number. -/
def settle (K : KeyScheme) : Nat → Network → Network
  | 0, n => n
  | fuel + 1, n => if n.agenda.isEmpty then n else settle K fuel (n.step K)

def expire (n : Network) : Network :=
  (List.range n.hosts.length).foldl (fun n k => n.changeHost k (·.expire n.elapsed)) n

/-- Lets time pass: what is in line is served first, then what has waited too long. -/
def advance (K : KeyScheme) (fuel : Nat) (n : Network) (ms : Nat) : Network :=
  ((({ n with elapsed := n.elapsed + ms } : Network).settle K fuel).expire).settle K fuel

/-- Sends a message; the sender waits as long as the outbox has no room. -/
def sendMessage (K : KeyScheme) (fuel : Nat) (n : Network) (k i : Nat) (data : Bytes) :
    Except Error Unit × Network :=
  let (result, n) := n.onHost k (.error .channelClosed) (·.sendMessage i data)
  let waits := (n.hosts[k]?.bind (·.conversations[i]?)).any (!·.outbox.parked.isEmpty)
  (result, if waits then n.settle K fuel else n)

def query (K : KeyScheme) (fuel : Nat) (n : Network) (k i : Nat) (data : Bytes) (timeout : Nat) :
    Option (Except Error Bytes) × Network :=
  let (id, n) := n.onHost k (Vector.replicate 32 0) (·.askQuery n.elapsed i data timeout)
  let result? (n : Network) := n.hosts[k]?.bind (·.queryResult? i id)
  let n := n.settle K fuel
  match result? n with
  | some r => (some r, n)
  | none =>
    let n := n.advance K fuel timeout
    (result? n, n)

end Adnl.Network
