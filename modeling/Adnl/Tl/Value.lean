import Adnl.Tl.Reader

/-! Single values of the encoding and the shapes by which they are read back. -/
namespace Adnl.Tl

inductive Value
  | u32 (w : UInt32)
  | i32 (w : Int32)
  | u64 (w : UInt64)
  | int128 (b : Bytes16)
  | int256 (b : Bytes32)
  | bytes (b : Bytes)
deriving DecidableEq, Repr

/-- What a value looks like, without its content. -/
inductive Shape
  | u32
  | i32
  | u64
  | int128
  | int256
  | bytes
deriving DecidableEq, Repr

namespace Value

def shape : Value → Shape
  | .u32 _ => .u32
  | .i32 _ => .i32
  | .u64 _ => .u64
  | .int128 _ => .int128
  | .int256 _ => .int256
  | .bytes _ => .bytes

def write : Value → Bytes
  | .u32 w => Tl.u32 w
  | .i32 w => Tl.i32 w
  | .u64 w => Tl.u64 w
  | .int128 b => b.toList
  | .int256 b => b.toList
  | .bytes b => byteString b

end Value

def Shape.read : Shape → Reader Value
  | .u32 => do return .u32 (← Reader.u32)
  | .i32 => do return .i32 (← Reader.i32)
  | .u64 => do return .u64 (← Reader.u64)
  | .int128 => do return .int128 (← Reader.vector 16)
  | .int256 => do return .int256 (← Reader.vector 32)
  | .bytes => do return .bytes (← Reader.byteString)

end Adnl.Tl
