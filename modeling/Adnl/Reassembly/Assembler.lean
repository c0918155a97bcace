import Adnl.Crypto.Sha256
import Adnl.Message
import Adnl.Reassembly.Transfer

/-! The transfers of one pair, each named by the hash of the whole message. -/
namespace Adnl

structure Assembler where
  maxBytes : Nat
  /-- Idle time after which a transfer may be dropped, in milliseconds. -/
  ttl : Nat
  transfers : List (Bytes32 × Transfer) := []
deriving DecidableEq, Repr

inductive PartOutcome
  | nothing
  | message (m : Message)
  /-- The whole message is there but reading it leaves its bytes. -/
  | outOfRange
deriving DecidableEq, Repr

namespace Assembler

/-- Number of transfers above which the expired ones are dropped. -/
def sweepThreshold : Nat := 16

def get? (a : Assembler) (hash : Bytes32) : Option Transfer := a.transfers.lookup hash

def erase (a : Assembler) (hash : Bytes32) : Assembler :=
  { a with transfers := a.transfers.filter fun e => e.1 ≠ hash }

def put (a : Assembler) (hash : Bytes32) (t : Transfer) : Assembler :=
  { a with transfers := (hash, t) :: (a.erase hash).transfers }

/-- Drops what has expired, once there are many transfers. -/
def sweep (a : Assembler) (now : Nat) : Assembler :=
  if sweepThreshold < a.transfers.length then
    { a with transfers := a.transfers.filter fun e => now < e.2.deadline }
  else a

/-- The message that a buffer holds, if it has the right hash. -/
def finish (hash : Bytes32) (buffer : Bytes) : PartOutcome :=
  if sha256 buffer = hash then
    match Message.decode buffer with
    | .ok m => .message m
    | .error (.refused _) => .nothing
    | .error .outOfRange => .outOfRange
  else .nothing

/-- Size and offset as numbers, when the part lies inside a message of acceptable size. -/
def bounds? (a : Assembler) (totalSize offset : Int32) (data : Bytes) : Option (Nat × Nat) :=
  let total := totalSize.toInt.toNat
  let start := offset.toInt.toNat
  if 1 ≤ totalSize.toInt ∧ total ≤ a.maxBytes ∧ 0 ≤ offset.toInt ∧ start + data.length ≤ total then
    some (total, start)
  else none

/-- Takes in a part. A part of another size than the transfer ends the transfer. -/
def accept (a : Assembler) (now : Nat) (hash : Bytes32) (totalSize offset : Int32) (data : Bytes) :
    PartOutcome × Assembler :=
  match a.bounds? totalSize offset data with
  | none => (.nothing, a)
  | some (total, start) =>
    let a := a.sweep now
    let t := (a.get? hash).getD (.start total (now + a.ttl))
    if t.total ≠ total then (.nothing, a.erase hash)
    else
      let (written, t') := t.fill start data
      if written = 0 then (.nothing, a.put hash t)
      else if t'.isComplete then (finish hash t'.buffer, a.erase hash)
      else (.nothing, a.put hash { t' with deadline := now + a.ttl })

end Assembler

end Adnl
