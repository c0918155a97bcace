import Adnl.Packet.Size

/-! What can be set for a host and all nodes on it. -/
namespace Adnl

/-- Packets per second and source address. -/
structure RateLimit where
  perSecond : Nat := 100
  enabled : Bool := true
deriving DecidableEq, Repr

def RateLimit.disabled : RateLimit := { enabled := false }

structure Config where
  /-- Size of a packet up to which messages are put together. -/
  mtu : Nat := defaultMtu
  queueCapacity : Nat := 1024
  /-- How long a query may stay unanswered by its handlers, in milliseconds. -/
  handlerTimeout : Nat := 10000
  /-- How far ahead a peer's reinit date may be, in seconds. -/
  maxReinitSkew : Nat := 60
  assemblerMaxBytes : Nat := 64 * 1024
  /-- Idle time after which an unfinished transfer may be dropped, in milliseconds. -/
  assemblerTtl : Nat := 10000
  announcementCapacity : Nat := 64
  rateLimit : RateLimit := {}
deriving Repr

namespace Config

/-- Size of a channel confirmation, which may share a packet with an application message. -/
def confirmationLength : Nat := 4 + 32 + 32 + 4

/-- Largest message that fits beside a header of the given size and a confirmation. -/
def maxMessageSize (c : Config) (headerSize : Nat) : Nat := c.mtu - headerSize - confirmationLength

def maxReinitSkewDate (c : Config) : Int32 := Int32.ofNat (min c.maxReinitSkew 0x7fffffff)

end Config

end Adnl
