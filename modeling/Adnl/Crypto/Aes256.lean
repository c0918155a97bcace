import Adnl.Bytes

/-! AES with a 256-bit key, encryption of single blocks. -/
namespace Adnl.Aes256

/-- Inversion in the field of 256 elements followed by the affine map. -/
def substitution : Array UInt8 :=
  #[0x63, 0x7c, 0x77, 0x7b, 0xf2, 0x6b, 0x6f, 0xc5, 0x30, 0x01, 0x67, 0x2b, 0xfe, 0xd7, 0xab, 0x76,
     0xca, 0x82, 0xc9, 0x7d, 0xfa, 0x59, 0x47, 0xf0, 0xad, 0xd4, 0xa2, 0xaf, 0x9c, 0xa4, 0x72, 0xc0,
     0xb7, 0xfd, 0x93, 0x26, 0x36, 0x3f, 0xf7, 0xcc, 0x34, 0xa5, 0xe5, 0xf1, 0x71, 0xd8, 0x31, 0x15,
     0x04, 0xc7, 0x23, 0xc3, 0x18, 0x96, 0x05, 0x9a, 0x07, 0x12, 0x80, 0xe2, 0xeb, 0x27, 0xb2, 0x75,
     0x09, 0x83, 0x2c, 0x1a, 0x1b, 0x6e, 0x5a, 0xa0, 0x52, 0x3b, 0xd6, 0xb3, 0x29, 0xe3, 0x2f, 0x84,
     0x53, 0xd1, 0x00, 0xed, 0x20, 0xfc, 0xb1, 0x5b, 0x6a, 0xcb, 0xbe, 0x39, 0x4a, 0x4c, 0x58, 0xcf,
     0xd0, 0xef, 0xaa, 0xfb, 0x43, 0x4d, 0x33, 0x85, 0x45, 0xf9, 0x02, 0x7f, 0x50, 0x3c, 0x9f, 0xa8,
     0x51, 0xa3, 0x40, 0x8f, 0x92, 0x9d, 0x38, 0xf5, 0xbc, 0xb6, 0xda, 0x21, 0x10, 0xff, 0xf3, 0xd2,
     0xcd, 0x0c, 0x13, 0xec, 0x5f, 0x97, 0x44, 0x17, 0xc4, 0xa7, 0x7e, 0x3d, 0x64, 0x5d, 0x19, 0x73,
     0x60, 0x81, 0x4f, 0xdc, 0x22, 0x2a, 0x90, 0x88, 0x46, 0xee, 0xb8, 0x14, 0xde, 0x5e, 0x0b, 0xdb,
     0xe0, 0x32, 0x3a, 0x0a, 0x49, 0x06, 0x24, 0x5c, 0xc2, 0xd3, 0xac, 0x62, 0x91, 0x95, 0xe4, 0x79,
     0xe7, 0xc8, 0x37, 0x6d, 0x8d, 0xd5, 0x4e, 0xa9, 0x6c, 0x56, 0xf4, 0xea, 0x65, 0x7a, 0xae, 0x08,
     0xba, 0x78, 0x25, 0x2e, 0x1c, 0xa6, 0xb4, 0xc6, 0xe8, 0xdd, 0x74, 0x1f, 0x4b, 0xbd, 0x8b, 0x8a,
     0x70, 0x3e, 0xb5, 0x66, 0x48, 0x03, 0xf6, 0x0e, 0x61, 0x35, 0x57, 0xb9, 0x86, 0xc1, 0x1d, 0x9e,
     0xe1, 0xf8, 0x98, 0x11, 0x69, 0xd9, 0x8e, 0x94, 0x9b, 0x1e, 0x87, 0xe9, 0xce, 0x55, 0x28, 0xdf,
     0x8c, 0xa1, 0x89, 0x0d, 0xbf, 0xe6, 0x42, 0x68, 0x41, 0x99, 0x2d, 0x0f, 0xb0, 0x54, 0xbb, 0x16]

def subByte (b : UInt8) : UInt8 := substitution.getD b.toNat 0

/-- Four bytes: a word of the key schedule or a column of the state. -/
structure Column where
  b0 : UInt8
  b1 : UInt8
  b2 : UInt8
  b3 : UInt8
deriving DecidableEq, Repr, Inhabited

namespace Column

def add (x y : Column) : Column := ⟨x.b0 ^^^ y.b0, x.b1 ^^^ y.b1, x.b2 ^^^ y.b2, x.b3 ^^^ y.b3⟩

def substitute (x : Column) : Column := ⟨subByte x.b0, subByte x.b1, subByte x.b2, subByte x.b3⟩

def rotate (x : Column) : Column := ⟨x.b1, x.b2, x.b3, x.b0⟩

/-- Multiplication by the field's generator polynomial `x`. -/
def double (b : UInt8) : UInt8 := (b <<< 1) ^^^ (if b &&& 0x80 = 0 then 0 else 0x1b)

/-- Multiplication by the fixed matrix with rows the rotations of `2 3 1 1`. -/
def mix (x : Column) : Column :=
  let all := x.b0 ^^^ x.b1 ^^^ x.b2 ^^^ x.b3
  ⟨x.b0 ^^^ all ^^^ double (x.b0 ^^^ x.b1), x.b1 ^^^ all ^^^ double (x.b1 ^^^ x.b2),
   x.b2 ^^^ all ^^^ double (x.b2 ^^^ x.b3), x.b3 ^^^ all ^^^ double (x.b3 ^^^ x.b0)⟩

end Column

/-- Four columns: the state of the cipher or a round key. -/
structure State where
  c0 : Column
  c1 : Column
  c2 : Column
  c3 : Column
deriving DecidableEq, Repr

namespace State

def add (s k : State) : State := ⟨s.c0.add k.c0, s.c1.add k.c1, s.c2.add k.c2, s.c3.add k.c3⟩

def substitute (s : State) : State :=
  ⟨s.c0.substitute, s.c1.substitute, s.c2.substitute, s.c3.substitute⟩

/-- Row `r` moves `r` columns to the left. -/
def shiftRows (s : State) : State :=
  ⟨⟨s.c0.b0, s.c1.b1, s.c2.b2, s.c3.b3⟩, ⟨s.c1.b0, s.c2.b1, s.c3.b2, s.c0.b3⟩,
   ⟨s.c2.b0, s.c3.b1, s.c0.b2, s.c1.b3⟩, ⟨s.c3.b0, s.c0.b1, s.c1.b2, s.c2.b3⟩⟩

def mix (s : State) : State := ⟨s.c0.mix, s.c1.mix, s.c2.mix, s.c3.mix⟩

def ofBlock (b : Bytes16) : State :=
  ⟨⟨b[0], b[1], b[2], b[3]⟩, ⟨b[4], b[5], b[6], b[7]⟩,
   ⟨b[8], b[9], b[10], b[11]⟩, ⟨b[12], b[13], b[14], b[15]⟩⟩

def toBlock (s : State) : Bytes16 :=
  #v[s.c0.b0, s.c0.b1, s.c0.b2, s.c0.b3, s.c1.b0, s.c1.b1, s.c1.b2, s.c1.b3,
     s.c2.b0, s.c2.b1, s.c2.b2, s.c2.b3, s.c3.b0, s.c3.b1, s.c3.b2, s.c3.b3]

end State

/-- Two round keys derived from the two before them. The first word takes in the round constant. -/
def nextKeys (constant : UInt8) (x y : State) : State × State :=
  let w0 := x.c0.add (y.c3.rotate.substitute.add ⟨constant, 0, 0, 0⟩)
  let w1 := x.c1.add w0
  let w2 := x.c2.add w1
  let w3 := x.c3.add w2
  let w4 := y.c0.add w3.substitute
  let w5 := y.c1.add w4
  let w6 := y.c2.add w5
  let w7 := y.c3.add w6
  (⟨w0, w1, w2, w3⟩, ⟨w4, w5, w6, w7⟩)

/-- The round keys that follow `x` and `y`, two for each round constant. -/
def expand : List UInt8 → State → State → List State
  | [], _, _ => []
  | constant :: rest, x, y =>
    let (x', y') := nextKeys constant x y
    x' :: y' :: expand rest x' y'

/-- A key schedule: the first key, those of the inner rounds and that of the final round. -/
structure Schedule where
  first : State
  inner : List State
  last : State

/-- Thirteen inner rounds; the second half of the last derived pair is not used. -/
def schedule (key : Bytes32) : Schedule :=
  let x := State.ofBlock ((key.take 16).cast (by decide))
  let y := State.ofBlock ((key.drop 16).cast (by decide))
  let derived := expand [0x01, 0x02, 0x04, 0x08, 0x10, 0x20, 0x40] x y
  ⟨x, y :: derived.take 12, derived.getD 12 x⟩

def encrypt (k : Schedule) (block : Bytes16) : Bytes16 :=
  let inner := k.inner.foldl (fun s key => s.substitute.shiftRows.mix.add key)
    ((State.ofBlock block).add k.first)
  (inner.substitute.shiftRows.add k.last).toBlock

end Adnl.Aes256
