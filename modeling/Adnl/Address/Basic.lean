import Adnl.Tl.Reader

/-! Where an identity can be reached. -/
namespace Adnl

inductive Ip
  | v4 (octets : UInt32)
  | v6 (octets : Bytes16)
deriving DecidableEq, Repr

/-- The address that stands for every interface. -/
def Ip.isUnspecified : Ip → Bool
  | .v4 octets => octets = 0
  | .v6 octets => octets = Vector.replicate 16 0

structure Address where
  ip : Ip
  port : UInt16
deriving DecidableEq, Repr

namespace Address

def tag4 : UInt32 := 0x670da6e7
def tag6 : UInt32 := 0xe31d63fa

def encodedLength (a : Address) : Nat :=
  match a.ip with
  | .v4 _ => 4 + 4 + 4
  | .v6 _ => 4 + 16 + 4

/-- The port is written as a whole word. -/
def encode (a : Address) : Bytes :=
  match a.ip with
  | .v4 octets => Tl.u32 tag4 ++ (Tl.u32 octets ++ Tl.u32 a.port.toUInt32)
  | .v6 octets => Tl.u32 tag6 ++ (octets.toList ++ Tl.u32 a.port.toUInt32)

def readPort : Reader UInt16 := do
  let port ← Reader.i32
  if 0 ≤ port.toInt ∧ port.toInt < 65536 then return UInt16.ofNat port.toInt.toNat
  else Reader.fail (.address (.port port))

def read : Reader Address := do
  let tag ← Reader.u32
  if tag = tag4 then
    let octets ← Reader.u32
    return ⟨.v4 octets, ← readPort⟩
  else if tag = tag6 then
    let octets ← Reader.vector 16
    return ⟨.v6 octets, ← readPort⟩
  else Reader.fail (.unexpectedConstructor tag)

theorem length_encode (a : Address) : a.encode.length = a.encodedLength := by
  rcases a with ⟨ip, port⟩
  cases ip <;> simp [encode, encodedLength]

end Address

end Adnl
