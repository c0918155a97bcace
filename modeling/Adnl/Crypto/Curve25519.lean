import Adnl.Crypto.Curve

/-! The curve over the field of `2 ^ 255 - 19` elements, in Edwards and in Montgomery form. -/
namespace Adnl

namespace Curve25519

abbrev p : Nat := Nat.pow 2 255 - 19

instance : @NeZero Nat Zero.ofOfNat0 p := ⟨by decide⟩

abbrev Residue := Fin p

namespace Residue

/-- Square and multiply over the binary digits of the exponent. -/
def pow (x : Residue) (e : Nat) : Residue :=
  if e = 0 then 1
  else
    let h := pow x (e / 2)
    if e % 2 = 0 then h * h else h * h * x

/-- The inverse; zero for zero. -/
def inv (x : Residue) : Residue := pow x (p - 2)

/-- Reduces the low 255 bits. -/
def ofBytes (b : Bytes32) : Residue := Fin.ofNat p (Bytes.toNatLE b.toList % Nat.pow 2 255)

def toBytes (x : Residue) (top : Nat) : Bytes32 :=
  Vector.ofFn fun i => UInt8.ofNat ((x.val + top * Nat.pow 2 255) >>> (8 * i.val))

/-- The odd residues are the negative ones. -/
def isNegative (x : Residue) : Bool := x.val % 2 = 1

def sqrtMinusOne : Residue := pow 2 ((p - 1) / 4)

/-- The non-negative root of `u / v`, if that is a square. -/
def sqrtRatio? (u v : Residue) : Option Residue :=
  let v3 := v * v * v
  let r := u * v3 * pow (u * v3 * v3 * v) ((p - 5) / 8)
  let check := v * r * r
  let root? := if check = u then some r else if check = -u then some (r * sqrtMinusOne) else none
  root?.map fun r => if isNegative r then -r else r

end Residue

/-- An affine point of `-x² + y² = 1 + d x² y²`. -/
structure Point where
  x : Residue
  y : Residue
deriving DecidableEq, Repr

/-- Extended coordinates: `x = X / Z`, `y = Y / Z`, `x y = T / Z`. -/
structure Extended where
  X : Residue
  Y : Residue
  Z : Residue
  T : Residue

/-- The curve constant `-121665 / 121666`. -/
def d : Residue := -121665 * Residue.inv 121666

def twiceD : Residue := d + d

namespace Extended

def neutral : Extended := ⟨0, 1, 1, 0⟩

def ofPoint (P : Point) : Extended := ⟨P.x, P.y, 1, P.x * P.y⟩

def toPoint (P : Extended) : Point :=
  let z := Residue.inv P.Z
  ⟨P.X * z, P.Y * z⟩

/-- Addition, complete on the whole curve. -/
def add (P Q : Extended) (k : Residue) : Extended :=
  let a := (P.Y - P.X) * (Q.Y - Q.X)
  let b := (P.Y + P.X) * (Q.Y + Q.X)
  let c := P.T * k * Q.T
  let z := P.Z * Q.Z
  let dd := z + z
  let e := b - a
  let f := dd - c
  let g := dd + c
  let h := b + a
  ⟨e * f, g * h, f * g, e * h⟩

def double (P : Extended) : Extended :=
  let a := P.X * P.X
  let b := P.Y * P.Y
  let zz := P.Z * P.Z
  let c := zz + zz
  let h := a + b
  let s := P.X + P.Y
  let e := h - s * s
  let g := a - b
  let f := c + g
  ⟨e * f, g * h, f * g, e * h⟩

/-- Double and add over the binary digits of the scalar. -/
def mul (k : Residue) (n : Nat) (P : Extended) : Extended :=
  if n = 0 then neutral
  else
    let h := double (mul k (n / 2) P)
    if n % 2 = 0 then h else add h P k

end Extended

namespace Point

def mul (n : Nat) (P : Point) : Point := (Extended.mul twiceD n (.ofPoint P)).toPoint

def sub (P Q : Point) : Point :=
  (Extended.add (.ofPoint P) (.ofPoint ⟨-Q.x, Q.y⟩) twiceD).toPoint

/-- The second coordinate, with the sign of the first in the top bit. -/
def compress (P : Point) : Bytes32 := P.y.toBytes (if P.x.isNegative then 1 else 0)

/-- Any encoding of a second coordinate is accepted, also an unreduced one. -/
def decompress (b : Bytes32) : Option Point :=
  let y := Residue.ofBytes b
  let yy := y * y
  (Residue.sqrtRatio? (yy - 1) (d * yy + 1)).map fun x =>
    ⟨if b[31] < 0x80 then x else -x, y⟩

/-- The point whose second coordinate is `4 / 5`. -/
def base : Point :=
  ⟨15112221349535400772501151409588531511454012693041857206046113283949847762202,
   46316835694926478169428394003475163141307993866256225615783033603165251855960⟩

/-- `(1 + y) / (1 - y)`; zero for the neutral point. -/
def toMontgomery (P : Point) : Bytes32 := ((1 + P.y) * Residue.inv (1 - P.y)).toBytes 0

end Point

def order : Nat := Nat.pow 2 252 + 27742317777372353535851937790883648493

/-- Projective Montgomery coordinates of two multiples that differ by the starting point. -/
structure Rungs where
  x2 : Residue
  z2 : Residue
  x3 : Residue
  z3 : Residue

namespace Rungs

def step (u : Residue) (r : Rungs) : Rungs :=
  let a := r.x2 + r.z2
  let aa := a * a
  let b := r.x2 - r.z2
  let bb := b * b
  let e := aa - bb
  let da := (r.x3 - r.z3) * a
  let cb := (r.x3 + r.z3) * b
  let s := da + cb
  let t := da - cb
  ⟨aa * bb, e * (aa + 121665 * e), s * s, u * (t * t)⟩

def swap (r : Rungs) : Rungs := ⟨r.x3, r.z3, r.x2, r.z2⟩

/-- Walks down the lowest `bits` binary digits of the scalar. -/
def walk (u : Residue) (n : Nat) : Nat → Rungs → Rungs
  | 0, r => r
  | bits + 1, r =>
    walk u n bits (if n.testBit bits then (step u r.swap).swap else step u r)

end Rungs

/-- The Montgomery coordinate of a multiple of the point with coordinate `u`. -/
def ladder (n : Nat) (u : Bytes32) : Bytes32 :=
  let x := Residue.ofBytes u
  let r := Rungs.walk x n 255 ⟨1, 0, x, 1⟩
  (r.x2 * Residue.inv r.z2).toBytes 0

end Curve25519

def curve25519 : Curve where
  Point := Curve25519.Point
  base := Curve25519.Point.base
  order := Curve25519.order
  mul := Curve25519.Point.mul
  sub := Curve25519.Point.sub
  compress := Curve25519.Point.compress
  decompress := Curve25519.Point.decompress
  toMontgomery := Curve25519.Point.toMontgomery
  ladder := Curve25519.ladder

/-- Ed25519 signatures and X25519 agreement. -/
def ed25519 : KeyScheme := curve25519.keyScheme

end Adnl
