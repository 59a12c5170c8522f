import FreshLocal.ModifiedUtf8

/-!
# Constants

The entries of a constant pool. A constant refers to others by their index.
Floating point numbers are kept as their bits, so every payload of a NaN stays
what it is.

* `Constant.width`: how many indices a constant takes.
* `Constant.write`, `Constant.read`: the tagged binary form.
-/

namespace FreshLocal

/-- The place of a constant in its pool. -/
abbrev PoolIndex := UInt16

/-- What a method handle does. -/
inductive ReferenceKind
  | getField | getStatic | putField | putStatic
  | invokeVirtual | invokeStatic | invokeSpecial | newInvokeSpecial | invokeInterface
deriving DecidableEq

namespace ReferenceKind

/-- The number that stands for the kind. -/
def code : ReferenceKind → UInt8
  | getField => 1
  | getStatic => 2
  | putField => 3
  | putStatic => 4
  | invokeVirtual => 5
  | invokeStatic => 6
  | invokeSpecial => 7
  | newInvokeSpecial => 8
  | invokeInterface => 9

/-- The kind that a number stands for. -/
def ofCode? : UInt8 → Option ReferenceKind
  | 1 => some getField
  | 2 => some getStatic
  | 3 => some putField
  | 4 => some putStatic
  | 5 => some invokeVirtual
  | 6 => some invokeStatic
  | 7 => some invokeSpecial
  | 8 => some newInvokeSpecial
  | 9 => some invokeInterface
  | _ => none

end ReferenceKind

/-- An entry of a constant pool. -/
inductive Constant
  | utf8 (text : String)
  | integer (value : Int32)
  | float (bits : UInt32)
  | long (value : Int64)
  | double (bits : UInt64)
  | classRef (name : PoolIndex)
  | string (text : PoolIndex)
  | fieldRef (owner signature : PoolIndex)
  | methodRef (owner signature : PoolIndex) (isInterface : Bool)
  | nameAndType (name descriptor : PoolIndex)
  | methodHandle (kind : ReferenceKind) (member : PoolIndex)
  | methodType (descriptor : PoolIndex)
  | dynamic (bootstrap : UInt16) (signature : PoolIndex)
  | invokeDynamic (bootstrap : UInt16) (signature : PoolIndex)
  | moduleRef (name : PoolIndex)
  | packageRef (name : PoolIndex)
deriving DecidableEq

namespace Constant

/-- A constant of eight bytes takes two indices, any other takes one. -/
def width : Constant → Nat
  | long _ | double _ => 2
  | _ => 1

theorem width_pos (c : Constant) : 0 < c.width := by
  unfold width
  split
  all_goals decide

/-- The tag of a constant, then its content. -/
def write : Constant → Bytes
  | utf8 text =>
    let body := ModifiedUtf8.encode text
    .u8 1 ++ .u16 (UInt16.ofNat body.length) ++ body
  | integer value => .u8 3 ++ .i32 value
  | float bits => .u8 4 ++ .u32 bits
  | long value => .u8 5 ++ .i64 value
  | double bits => .u8 6 ++ .u64 bits
  | classRef name => .u8 7 ++ .u16 name
  | string text => .u8 8 ++ .u16 text
  | fieldRef owner signature => .u8 9 ++ .u16 owner ++ .u16 signature
  | methodRef owner signature isInterface =>
    .u8 (if isInterface then 11 else 10) ++ .u16 owner ++ .u16 signature
  | nameAndType name descriptor => .u8 12 ++ .u16 name ++ .u16 descriptor
  | methodHandle kind member => .u8 15 ++ .u8 kind.code ++ .u16 member
  | methodType descriptor => .u8 16 ++ .u16 descriptor
  | dynamic bootstrap signature => .u8 17 ++ .u16 bootstrap ++ .u16 signature
  | invokeDynamic bootstrap signature => .u8 18 ++ .u16 bootstrap ++ .u16 signature
  | moduleRef name => .u8 19 ++ .u16 name
  | packageRef name => .u8 20 ++ .u16 name

/-- The text of a constant behind its tag: a length in 16 bits, then that many bytes. -/
def readText : Reader String := do
  let length ← Reader.u16
  let body ← Reader.bytes length.toNat
  ModifiedUtf8.decode body

/-- The content of a method handle. -/
def readHandle : Reader Constant := do
  let code ← Reader.u8
  match ReferenceKind.ofCode? code with
  | some kind => methodHandle kind <$> Reader.u16
  | none => throw (.badHandleKind code)

/-- A tagged constant. -/
def read : Reader Constant := do
  let tag ← Reader.u8
  match tag with
  | 1 => utf8 <$> readText
  | 3 => integer <$> Reader.i32
  | 4 => float <$> Reader.u32
  | 5 => long <$> Reader.i64
  | 6 => double <$> Reader.u64
  | 7 => classRef <$> Reader.u16
  | 8 => string <$> Reader.u16
  | 9 => fieldRef <$> Reader.u16 <*> Reader.u16
  | 10 => (methodRef · · false) <$> Reader.u16 <*> Reader.u16
  | 11 => (methodRef · · true) <$> Reader.u16 <*> Reader.u16
  | 12 => nameAndType <$> Reader.u16 <*> Reader.u16
  | 15 => readHandle
  | 16 => methodType <$> Reader.u16
  | 17 => dynamic <$> Reader.u16 <*> Reader.u16
  | 18 => invokeDynamic <$> Reader.u16 <*> Reader.u16
  | 19 => moduleRef <$> Reader.u16
  | 20 => packageRef <$> Reader.u16
  | _ => throw (.badConstantTag tag)

end Constant

end FreshLocal
