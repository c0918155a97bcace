import Adnl.Packet.Codec

/-! Bounds on the size of a packet without its messages. -/
namespace Adnl

def defaultMtu : Nat := 1440

/-- Bound for a signed packet with an address list of at most `listAllowance` bytes. -/
def plainHeaderBase : Nat := 272

/-- Six IPv4 or three IPv6 addresses. -/
def listAllowance : Nat := 92

def plainHeaderSize (l : AddressList) : Nat :=
  plainHeaderBase + (l.encodedLength - listAllowance)

def channelHeaderSize : Nat := 128

end Adnl
