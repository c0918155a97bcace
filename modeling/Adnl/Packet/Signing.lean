import Adnl.Packet.Codec

/-! Signatures over packets. What is signed is the encoding of the packet without its signature. -/
namespace Adnl.Packet

def unsigned (p : Packet) : Packet := { p with signature := none }

def sign (K : KeyScheme) (seed : Bytes32) (p : Packet) : Packet :=
  { p with signature := some (K.sign seed p.unsigned.encode) }

def verify (K : KeyScheme) (key : PublicKey) (p : Packet) : Except Error Unit :=
  match p.signature with
  | none => .error (.packet .missingSignature)
  | some signature =>
    match K.verify key p.unsigned.encode signature with
    | .ok () => .ok ()
    | .error e => .error (.crypto e)

end Adnl.Packet
