import Adnl.Tl.Reader

/-! The messages that packets carry. -/
namespace Adnl

inductive Message
  /-- Announces the sender's channel key. -/
  | createChannel (key : Bytes32) (date : Int32)
  /-- Answers an announcement: the sender's channel key and the receiver's own one. -/
  | confirmChannel (key peerKey : Bytes32) (date : Int32)
  | custom (data : Bytes)
  | nop
  | reinit (date : Int32)
  | query (id : Bytes32) (data : Bytes)
  | answer (id : Bytes32) (data : Bytes)
  /-- A piece of a larger encoded message with the given hash. -/
  | part (hash : Bytes32) (totalSize offset : Int32) (data : Bytes)
deriving DecidableEq, Repr

namespace Message

def createChannelTag : UInt32 := 0xe673c3bb
def confirmChannelTag : UInt32 := 0x60dd1d69
def customTag : UInt32 := 0x204818f5
def nopTag : UInt32 := 0x17f8dfda
def reinitTag : UInt32 := 0x10c20520
def queryTag : UInt32 := 0xb48bf97a
def answerTag : UInt32 := 0x0fac8416
def partTag : UInt32 := 0xfd452d39

def tag : Message → UInt32
  | .createChannel .. => createChannelTag
  | .confirmChannel .. => confirmChannelTag
  | .custom .. => customTag
  | .nop => nopTag
  | .reinit .. => reinitTag
  | .query .. => queryTag
  | .answer .. => answerTag
  | .part .. => partTag

def queryId? : Message → Option Bytes32
  | .query id _ => some id
  | _ => none

/-- Size of the fields behind the constructor id. -/
def fieldsLength : Message → Nat
  | .createChannel .. => 32 + 4
  | .confirmChannel .. => 32 + 32 + 4
  | .custom data => Tl.bytesLength data.length
  | .nop => 0
  | .reinit .. => 4
  | .query _ data => 32 + Tl.bytesLength data.length
  | .answer _ data => 32 + Tl.bytesLength data.length
  | .part _ _ _ data => 32 + 4 + 4 + Tl.bytesLength data.length

def encodedLength (m : Message) : Nat := 4 + m.fieldsLength

def encodeFields : Message → Bytes
  | .createChannel key date => key.toList ++ Tl.i32 date
  | .confirmChannel key peerKey date => key.toList ++ (peerKey.toList ++ Tl.i32 date)
  | .custom data => Tl.byteString data
  | .nop => []
  | .reinit date => Tl.i32 date
  | .query id data => id.toList ++ Tl.byteString data
  | .answer id data => id.toList ++ Tl.byteString data
  | .part hash totalSize offset data =>
    hash.toList ++ (Tl.i32 totalSize ++ (Tl.i32 offset ++ Tl.byteString data))

def encode (m : Message) : Bytes := Tl.u32 m.tag ++ m.encodeFields

def readFields (tag : UInt32) : Reader Message := do
  if tag = createChannelTag then
    return .createChannel (← Reader.vector 32) (← Reader.i32)
  else if tag = confirmChannelTag then
    return .confirmChannel (← Reader.vector 32) (← Reader.vector 32) (← Reader.i32)
  else if tag = customTag then
    return .custom (← Reader.byteString)
  else if tag = nopTag then
    return .nop
  else if tag = reinitTag then
    return .reinit (← Reader.i32)
  else if tag = queryTag then
    return .query (← Reader.vector 32) (← Reader.byteString)
  else if tag = answerTag then
    return .answer (← Reader.vector 32) (← Reader.byteString)
  else if tag = partTag then
    return .part (← Reader.vector 32) (← Reader.i32) (← Reader.i32) (← Reader.byteString)
  else
    Reader.fail (.unexpectedConstructor tag)

def read : Reader Message := do readFields (← Reader.u32)

def decode (data : Bytes) : Except Failure Message := Reader.whole read data

theorem length_encode (m : Message) : m.encode.length = m.encodedLength := by
  cases m
  all_goals simp [encode, encodedLength, encodeFields, fieldsLength]
  omega

end Message

end Adnl
