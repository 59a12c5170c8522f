import FreshLocal.ConstantPool

/-!
# Class files

The outer structure of a class file: a version, a constant pool, the class
itself, and its fields, methods and attributes. Attributes are bytes under a
name; what stands in a `Code` attribute is read elsewhere.

* `Flags`: access flags, of which only the known bits are kept.
* `ClassFile.write`, `ClassFile.read`: the binary form. A class file has no
  bytes behind its last attribute.
-/

namespace FreshLocal

/-- Access flags; a bit outside of `known` has no meaning and is never set. -/
structure Flags (known : UInt16) where
  bits : UInt16
  isKnown : bits &&& known = bits
deriving DecidableEq

namespace Flags

variable {known : UInt16}

/-- The known ones of some bits. -/
def ofBits (bits : UInt16) : Flags known :=
  ⟨bits &&& known, by rw [UInt16.and_assoc, UInt16.and_self]⟩

/-- The bits, which are all known. -/
def write (flags : Flags known) : Bytes := .u16 flags.bits

/-- Unknown bits are dropped. -/
def read : Reader (Flags known) := ofBits <$> Reader.u16

end Flags

/-- The access flags that a class may have. -/
abbrev ClassFlags := Flags 0xF631

/-- The access flags that a method may have. -/
abbrev MethodFlags := Flags 0x1DFF

/-- The access flags that a field may have. -/
abbrev FieldFlags := Flags 0x50DF

/-- Is the method declared `static`? -/
def MethodFlags.isStatic (flags : MethodFlags) : Bool := flags.bits &&& 0x0008 != 0

/-- The version of the format, with the minor part first in its binary form. -/
structure Version where
  major : UInt16
  minor : UInt16
deriving DecidableEq

namespace Version

/-- The version from which on frames may be listed. -/
def java6 : Version := ⟨50, 0⟩

/-- The version from which on frames have to be listed. -/
def java7 : Version := ⟨51, 0⟩

/-- The version that new classes get. -/
def java8 : Version := ⟨52, 0⟩

/-- A version with long-term support. -/
def java11 : Version := ⟨55, 0⟩

/-- A version with long-term support. -/
def java17 : Version := ⟨61, 0⟩

/-- The minor part, then the major one. -/
def write (v : Version) : Bytes := .u16 v.minor ++ .u16 v.major

/-- The minor part, then the major one. -/
def read : Reader Version := do
  let minor ← Reader.u16
  let major ← Reader.u16
  pure ⟨major, minor⟩

end Version

/-- Bytes under a name, attached to a class, a field, a method or the code of a method. -/
structure Attribute where
  name : PoolIndex
  body : Bytes
deriving DecidableEq

namespace Attribute

/-- The length of the body is written in 32 bits. -/
def write (a : Attribute) : Bytes :=
  .u16 a.name ++ .u32 (UInt32.ofNat a.body.length) ++ a.body

/-- A name, a length in 32 bits, and that many bytes. -/
def read : Reader Attribute := do
  let name ← Reader.u16
  let length ← Reader.u32
  let body ← Reader.bytes length.toNat
  pure ⟨name, body⟩

end Attribute

/-- A field or a method that a class declares. -/
structure Member (known : UInt16) where
  flags : Flags known
  name : PoolIndex
  descriptor : PoolIndex
  attributes : List Attribute
deriving DecidableEq

/-- A field that a class declares. -/
abbrev Field := Member 0x50DF

/-- A method that a class declares. -/
abbrev Method := Member 0x1DFF

namespace Member

variable {known : UInt16}

/-- The flags, the two indices, then the attributes behind their number. -/
def write (m : Member known) : Bytes :=
  m.flags.write ++ .u16 m.name ++ .u16 m.descriptor ++ .counted Attribute.write m.attributes

/-- The flags, the two indices, then the attributes behind their number. -/
def read : Reader (Member known) := do
  let flags ← Flags.read
  let name ← Reader.u16
  let descriptor ← Reader.u16
  let attributes ← Reader.counted Attribute.read
  pure ⟨flags, name, descriptor, attributes⟩

end Member

/-- A class. The index of the superclass is 0 where there is none. -/
structure ClassFile where
  version : Version
  pool : ConstantPool
  flags : ClassFlags
  thisClass : PoolIndex
  superClass : PoolIndex
  interfaces : List PoolIndex
  fields : Array Field
  methods : Array Method
  attributes : Array Attribute
deriving DecidableEq

namespace ClassFile

/-- The number that every class file starts with. -/
def magic : UInt32 := 0xCAFEBABE

/-- The bytes of a class, from the magic number to the last attribute. -/
def write (c : ClassFile) : Bytes :=
  .u32 magic ++ c.version.write ++ c.pool.write ++ c.flags.write ++ .u16 c.thisClass ++
    .u16 c.superClass ++ .counted Bytes.u16 c.interfaces ++
    .counted Member.write c.fields.toList ++ .counted Member.write c.methods.toList ++
    .counted Attribute.write c.attributes.toList

/-- What stands before the constant pool. -/
def readVersion : Reader Version := do
  let found ← Reader.u32
  if found = magic then Version.read else throw (.badMagic found)

/-- What stands behind the constant pool. -/
def readBehind (version : Version) (pool : ConstantPool) : Reader ClassFile := do
  let flags ← Flags.read
  let thisClass ← Reader.u16
  let superClass ← Reader.u16
  let interfaces ← Reader.counted Reader.u16
  let fields ← Reader.counted Member.read
  let methods ← Reader.counted Member.read
  let attributes ← Reader.counted Attribute.read
  pure {
    version, pool, flags, thisClass, superClass, interfaces
    fields := fields.toArray, methods := methods.toArray, attributes := attributes.toArray }

/-- The class in some bytes that hold nothing else. -/
def read (bytes : Bytes) : Except Fault ClassFile := do
  let (version, c) ← (readVersion (.start bytes)).mapError .decode
  let (pool, c) ← ConstantPool.read c
  let (file, c) ← (readBehind version pool c).mapError .decode
  if c.ahead.isEmpty then pure file else throw (.decode (.trailingBytes "ClassFile"))

end ClassFile

end FreshLocal
