import Adnl.Packet.Basic

/-! Packets as bytes. Fields appear in the order of their flag bits. -/
namespace Adnl

namespace PublicKey

def encode (key : PublicKey) : Bytes := Tl.u32 tag ++ key.bytes.toList

def read : Reader PublicKey := do
  Reader.tag tag
  return ⟨← Reader.vector 32⟩

end PublicKey

namespace ShortId

def ofBytes (data : Bytes) : Except Error ShortId :=
  match Bytes.toVector? 32 data with
  | some b => .ok ⟨b⟩
  | none => .error (.packet (.idLength data.length))

end ShortId

namespace ReinitDates

def encode (d : ReinitDates) : Bytes := Tl.i32 d.own ++ Tl.i32 d.receiver

def read : Reader ReinitDates := do return ⟨← Reader.i32, ← Reader.i32⟩

end ReinitDates

namespace Packet

def tag : UInt32 := 0xd142cd89

def encodeField {α : Type} (encode : α → Bytes) : Option α → Bytes
  | none => []
  | some a => encode a

def encodeMessages (ms : List Message) : Bytes :=
  Tl.u32 (UInt32.ofNat ms.length) ++ ms.flatMap Message.encode

/-- The fields between the flags and the second padding. -/
def encodeFields (p : Packet) : Bytes :=
  encodeField PublicKey.encode p.sender ++ (
  encodeField (·.bytes.toList) p.senderId ++ (
  encodeField Message.encode p.message ++ (
  encodeField encodeMessages p.messages ++ (
  encodeField AddressList.encode p.address ++ (
  encodeField AddressList.encode p.priorityAddress ++ (
  encodeField Tl.u64 p.seqno ++ (
  encodeField Tl.u64 p.confirmSeqno ++ (
  encodeField Tl.i32 p.knownVersion ++ (
  encodeField Tl.i32 p.knownPriorityVersion ++ (
  encodeField ReinitDates.encode p.reinitDates ++
  encodeField Tl.byteString p.signature))))))))))

def encode (p : Packet) : Bytes :=
  Tl.u32 tag ++ (Tl.byteString p.rand1 ++ (Tl.u32 p.flags.word ++
    (p.encodeFields ++ Tl.byteString p.rand2)))

/-- Flags that have only defined bits and at most one of the message fields. -/
def readFlags : Reader Flags := do
  let f : Flags := ⟨← Reader.u32⟩
  if f.hasReserved then Reader.fail (.packet (.reservedFlags f.word))
  else if f.has Flags.message && f.has Flags.messages then Reader.fail (.packet .bothMessageFields)
  else return f

def readMessages : Reader (List Message) := do
  Reader.times Message.read (← Reader.vectorLength)

/-- The sender's key and id, which have to agree when both are there. -/
def readSender (f : Flags) : Reader (Option PublicKey × Option ShortId) := do
  let sender ← Reader.optional (f.has Flags.sender) PublicKey.read
  let senderId ← Reader.optional (f.has Flags.senderId) (do return ⟨← Reader.vector 32⟩)
  match sender, senderId with
  | some key, some id =>
    if key.shortId = id then return (sender, senderId)
    else Reader.fail (.packet .senderMismatch)
  | _, _ => return (sender, senderId)

def read : Reader Packet := do
  Reader.tag tag
  let rand1 ← Reader.byteString
  let f ← readFlags
  let (sender, senderId) ← readSender f
  let message ← Reader.optional (f.has Flags.message) Message.read
  let messages ← Reader.optional (f.has Flags.messages) readMessages
  let address ← Reader.optional (f.has Flags.address) AddressList.read
  let priorityAddress ← Reader.optional (f.has Flags.priorityAddress) AddressList.read
  let seqno ← Reader.optional (f.has Flags.seqno) Reader.u64
  let confirmSeqno ← Reader.optional (f.has Flags.confirmSeqno) Reader.u64
  let knownVersion ← Reader.optional (f.has Flags.knownVersion) Reader.i32
  let knownPriorityVersion ← Reader.optional (f.has Flags.knownPriorityVersion) Reader.i32
  let reinitDates ← Reader.optional (f.has Flags.reinitDates) ReinitDates.read
  let signature ← Reader.optional (f.has Flags.signature) Reader.byteString
  let rand2 ← Reader.byteString
  return {
    rand1, sender, senderId, message, messages, address, priorityAddress, seqno, confirmSeqno,
    knownVersion, knownPriorityVersion, reinitDates, signature
    priority := f.has Flags.priority
    rand2 }

def decode (data : Bytes) : Except Failure Packet := Reader.whole read data

end Packet

end Adnl
