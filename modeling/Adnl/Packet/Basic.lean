import Adnl.Address.List
import Adnl.Message
import Adnl.Packet.Flags

/-! Packets: messages with a header of optional fields between two random paddings. -/
namespace Adnl

/-- Two epochs, always sent together. -/
structure ReinitDates where
  /-- When the sender last started. -/
  own : Int32
  /-- When the receiver last started, as far as the sender knows; zero if it does not. -/
  receiver : Int32
deriving DecidableEq, Repr

structure Packet where
  rand1 : Bytes := []
  sender : Option PublicKey := none
  senderId : Option ShortId := none
  /-- The field for exactly one message; never there together with `messages`. -/
  message : Option Message := none
  messages : Option (List Message) := none
  address : Option AddressList := none
  priorityAddress : Option AddressList := none
  seqno : Option UInt64 := none
  /-- The highest number received so far from the other side. -/
  confirmSeqno : Option UInt64 := none
  /-- The version held of the receiver's address list. -/
  knownVersion : Option Int32 := none
  knownPriorityVersion : Option Int32 := none
  reinitDates : Option ReinitDates := none
  signature : Option Bytes := none
  priority : Bool := false
  rand2 : Bytes := []
deriving DecidableEq, Repr

namespace Packet

/-- Stores messages, a single one in the field for one. -/
def setMessages (p : Packet) (ms : List Message) : Packet :=
  match ms with
  | [] => { p with message := none, messages := none }
  | [m] => { p with message := some m, messages := none }
  | ms => { p with message := none, messages := some ms }

def allMessages (p : Packet) : List Message :=
  match p.message, p.messages with
  | some m, _ => [m]
  | none, some ms => ms
  | none, none => []

def withoutMessages (p : Packet) : Packet := { p with message := none, messages := none }

/-- Who the packet says it is from. -/
def senderName (p : Packet) : Option ShortId :=
  match p.sender with
  | some key => some key.shortId
  | none => p.senderId

def flags (p : Packet) : Flags :=
  ({} : Flags)
    |>.setIf Flags.sender p.sender.isSome
    |>.setIf Flags.senderId p.senderId.isSome
    |>.setIf Flags.message p.message.isSome
    |>.setIf Flags.messages p.messages.isSome
    |>.setIf Flags.address p.address.isSome
    |>.setIf Flags.priorityAddress p.priorityAddress.isSome
    |>.setIf Flags.seqno p.seqno.isSome
    |>.setIf Flags.confirmSeqno p.confirmSeqno.isSome
    |>.setIf Flags.knownVersion p.knownVersion.isSome
    |>.setIf Flags.knownPriorityVersion p.knownPriorityVersion.isSome
    |>.setIf Flags.reinitDates p.reinitDates.isSome
    |>.setIf Flags.signature p.signature.isSome
    |>.setIf Flags.priority p.priority

end Packet

end Adnl
