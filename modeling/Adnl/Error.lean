import Adnl.Crypto.Error
import Adnl.Identity

/-! Why data, packets and requests are refused, and the text of each reason. -/
namespace Adnl

inductive TlFault
  | short (need got : Nat)
  /-- A byte string starts where the data ends. -/
  | absent
  /-- The data ends inside the four-byte length of a byte string. -/
  | shortLength
  /-- The length byte 255 has no meaning. -/
  | reservedLength
  | longVector (count : Nat)
  | trailing (count : Nat)
deriving DecidableEq, Repr

inductive PacketFault
  | idLength (length : Nat)
  | reservedFlags (word : UInt32)
  | bothMessageFields
  | senderMismatch
  | missingSignature
  | staleChannel (date installed : Int32)
  /-- A confirmation names a channel key that is not the current one. -/
  | foreignConfirmation
deriving DecidableEq, Repr

inductive AddressFault
  | port (value : Int32)
  | none
deriving DecidableEq, Repr

/-- What an entry of a routing table stands for. -/
inductive RouteKind
  | localNode
  | channel
deriving DecidableEq, Repr

inductive Error
  | io
  | packet (fault : PacketFault)
  | tl (fault : TlFault)
  | unexpectedConstructor (tag : UInt32)
  | crypto (error : CryptoError)
  | messageTooLarge (size limit : Nat)
  | queryTimeout
  | channelClosed
  | idCollision (id : ShortId) (kind : RouteKind)
  | address (fault : AddressFault)
deriving DecidableEq, Repr

def wordText (w : UInt32) : String := "0x" ++ Bytes.toHex (Bytes.ofNatBE 4 w.toNat)

def TlFault.message : TlFault → String
  | .short need got => s!"need {need} bytes, have {got}"
  | .absent => "need at least 1 byte"
  | .shortLength => "need at least 4 bytes for long encoding"
  | .reservedLength => "invalid bytes prefix 0xff"
  | .longVector count => s!"vector of {count} elements"
  | .trailing count => s!"{count} trailing bytes"

def PacketFault.message : PacketFault → String
  | .idLength length => s!"id of {length} bytes"
  | .reservedFlags word => "reserved flags " ++ wordText word
  | .bothMessageFields => "both message and messages present"
  | .senderMismatch => "from/from_short mismatch"
  | .missingSignature => "missing signature"
  | .staleChannel date installed =>
    s!"channel date {date.toInt} is not newer than {installed.toInt}"
  | .foreignConfirmation => "confirmation for a channel key we no longer hold"

def AddressFault.message : AddressFault → String
  | .port value => s!"port {value.toInt}"
  | .none => "no address for peer"

def RouteKind.text : RouteKind → String
  | .localNode => "LocalNode"
  | .channel => "Channel"

def Error.message : Error → String
  | .io => "I/O error"
  | .packet fault => "Invalid packet: " ++ fault.message
  | .tl fault => "TL error: " ++ fault.message
  | .unexpectedConstructor tag => "Unexpected constructor: " ++ wordText tag
  | .crypto error => "Crypto error: " ++ error.message
  | .messageTooLarge size limit => s!"Message too large: {size} bytes (max: {limit})"
  | .queryTimeout => "Query timeout"
  | .channelClosed => "Channel closed"
  | .idCollision id kind =>
    "Id already registered: " ++ id.text ++ " already routes to a " ++ kind.text
  | .address fault => "Invalid address: " ++ fault.message

end Adnl
