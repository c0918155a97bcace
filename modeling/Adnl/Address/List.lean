import Adnl.Address.Basic

/-! Versioned lists of addresses, and what is known of a remote identity. -/
namespace Adnl

/-- The addresses of an identity, in order of preference. -/
structure AddressList where
  addresses : List Address := []
  /-- Raised by the owner whenever the list changes. -/
  version : Int32 := 0
  /-- When the owner last started. -/
  reinitDate : Int32 := 0
  priority : Int32 := 0
  /-- Zero for a list that never expires. -/
  expireAt : Int32 := 0
deriving DecidableEq, Repr, Inhabited

namespace AddressList

def ofAddress (a : Address) : AddressList := { addresses := [a] }

/-- A later reinit date, or the same one and a higher version. -/
def isNewerThan (l m : AddressList) : Bool :=
  m.reinitDate < l.reinitDate || (l.reinitDate = m.reinitDate && m.version < l.version)

def encodedLength (l : AddressList) : Nat :=
  4 + Bytes.total (l.addresses.map Address.encodedLength) + 4 * 4

def encode (l : AddressList) : Bytes :=
  Tl.u32 (UInt32.ofNat l.addresses.length) ++ (l.addresses.flatMap Address.encode ++
    (Tl.i32 l.version ++ (Tl.i32 l.reinitDate ++ (Tl.i32 l.priority ++ Tl.i32 l.expireAt))))

def read : Reader AddressList := do
  let count ← Reader.vectorLength
  let addresses ← Reader.times Address.read count
  let version ← Reader.i32
  let reinitDate ← Reader.i32
  let priority ← Reader.i32
  let expireAt ← Reader.i32
  return ⟨addresses, version, reinitDate, priority, expireAt⟩

theorem length_encode (l : AddressList) : l.encode.length = l.encodedLength := by
  have h : (l.addresses.flatMap Address.encode).length =
      Bytes.total (l.addresses.map Address.encodedLength) := by
    simp only [Bytes.length_flatMap, Address.length_encode]
  simp [encode, encodedLength, h]
  omega

end AddressList

/-- An identity and where to find it. -/
structure Descriptor where
  key : PublicKey
  addresses : AddressList
deriving DecidableEq, Repr

namespace Descriptor

/-- Takes over a newer list; also tells whether it did. -/
def update (d : Descriptor) (l : AddressList) : Bool × Descriptor :=
  if l.isNewerThan d.addresses then (true, { d with addresses := l }) else (false, d)

end Descriptor

end Adnl
