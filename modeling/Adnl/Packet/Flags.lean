/-! The word that says which fields of a packet are present. -/
namespace Adnl

structure Flags where
  word : UInt32 := 0
deriving DecidableEq, Repr

namespace Flags

def sender : UInt32 := 0x0001
def senderId : UInt32 := 0x0002
def message : UInt32 := 0x0004
def messages : UInt32 := 0x0008
def address : UInt32 := 0x0010
def priorityAddress : UInt32 := 0x0020
def seqno : UInt32 := 0x0040
def confirmSeqno : UInt32 := 0x0080
def knownVersion : UInt32 := 0x0100
def knownPriorityVersion : UInt32 := 0x0200
def reinitDates : UInt32 := 0x0400
def signature : UInt32 := 0x0800
/-- A mark without a field. -/
def priority : UInt32 := 0x1000

def defined : UInt32 := 0x1fff

def has (f : Flags) (mask : UInt32) : Bool := f.word &&& mask != 0

def set (f : Flags) (mask : UInt32) : Flags := ⟨f.word ||| mask⟩

def setIf (f : Flags) (mask : UInt32) (present : Bool) : Flags :=
  if present then f.set mask else f

def hasReserved (f : Flags) : Bool := f.word &&& ~~~defined != 0

end Flags

end Adnl
