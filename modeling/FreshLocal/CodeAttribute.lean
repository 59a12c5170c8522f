import FreshLocal.StackMap

/-!
# The code attribute and its tables

The body of a method is stored in its `Code` attribute: two limits, the bytes
of the instructions, the exception handlers and further attributes. Some of
those are tables, which give positions in the code by their offsets.

* `CodeAttribute.write`, `CodeAttribute.read`: the attribute.
* `LineNumber`, `VariableEntry`, `StackMapFrame`: the entries of the tables.
-/

namespace FreshLocal

/-- A range of the code and the place where its exceptions are handled. -/
structure Handler (π : Type) where
  start : π
  /-- The position behind the last one of the range. -/
  stop : π
  target : π
  /-- The class of the exceptions, or nothing if all of them are handled. -/
  catchType : Option PoolIndex
deriving DecidableEq

namespace Handler

/-- The index 0 stands for exceptions of every class. -/
def write (h : Handler UInt16) : Bytes :=
  .u16 h.start ++ .u16 h.stop ++ .u16 h.target ++ .u16 (h.catchType.getD 0)

/-- The index 0 stands for exceptions of every class. -/
def read : Reader (Handler UInt16) := do
  let start ← Reader.u16
  let stop ← Reader.u16
  let target ← Reader.u16
  let index ← Reader.u16
  pure ⟨start, stop, target, if index = 0 then none else some index⟩

/-- Change how positions are given. -/
def mapM {π π' : Type} {m : Type → Type} [Monad m] (f : π → m π') (h : Handler π) :
    m (Handler π') := do
  let start ← f h.start
  let stop ← f h.stop
  let target ← f h.target
  pure ⟨start, stop, target, h.catchType⟩

/-- The positions that a handler refers to. -/
def positions {π : Type} (h : Handler π) : List π := [h.start, h.stop, h.target]

end Handler

/-- The line of the source that the instruction at an offset belongs to. -/
structure LineNumber where
  start : UInt16
  line : UInt16
deriving DecidableEq

namespace LineNumber

/-- The offset, then the line. -/
def write (l : LineNumber) : Bytes := .u16 l.start ++ .u16 l.line

/-- The offset, then the line. -/
def read : Reader LineNumber := do
  let start ← Reader.u16
  let line ← Reader.u16
  pure ⟨start, line⟩

end LineNumber

/-- The name and the type of a local variable over a range of the code. -/
structure VariableEntry where
  start : UInt16
  length : UInt16
  name : PoolIndex
  /-- A descriptor, or a signature in the table of generic types. -/
  type : PoolIndex
  slot : UInt16
deriving DecidableEq

namespace VariableEntry

/-- The range, the name, the type and the slot. -/
def write (v : VariableEntry) : Bytes :=
  .u16 v.start ++ .u16 v.length ++ .u16 v.name ++ .u16 v.type ++ .u16 v.slot

/-- The range, the name, the type and the slot. -/
def read : Reader VariableEntry := do
  let start ← Reader.u16
  let length ← Reader.u16
  let name ← Reader.u16
  let type ← Reader.u16
  let slot ← Reader.u16
  pure ⟨start, length, name, type, slot⟩

end VariableEntry

/-- The body of a method as it is stored. -/
structure CodeAttribute where
  maxStack : UInt16
  maxLocals : UInt16
  code : Bytes
  handlers : List (Handler UInt16)
  attributes : List Attribute
deriving DecidableEq

namespace CodeAttribute

/-- The length of the code is written in 32 bits. -/
def write (c : CodeAttribute) : Bytes :=
  .u16 c.maxStack ++ .u16 c.maxLocals ++ .u32 (UInt32.ofNat c.code.length) ++ c.code ++
    .counted Handler.write c.handlers ++ .counted Attribute.write c.attributes

/-- The limits, the code behind its length, the handlers and the attributes. -/
def reader : Reader CodeAttribute := do
  let maxStack ← Reader.u16
  let maxLocals ← Reader.u16
  let length ← Reader.u32
  let code ← Reader.bytes length.toNat
  let handlers ← Reader.counted Handler.read
  let attributes ← Reader.counted Attribute.read
  pure { maxStack, maxLocals, code, handlers, attributes }

/-- The attribute of a method that holds its body. -/
def name : String := "Code"

/-- The code in the body of the attribute. -/
def read (body : Bytes) : Except DecodeFault CodeAttribute := reader.whole name body

end CodeAttribute

namespace StackMapFrame

/-- The attribute of a body that lists its frames. -/
def tableName : String := "StackMapTable"

/-- The frames behind their number. -/
def writeTable (frames : List StackMapFrame) : Bytes := .counted write frames

/-- The frames in the body of an attribute. -/
def readTable (body : Bytes) : Except DecodeFault (List StackMapFrame) :=
  (Reader.counted read).whole tableName body

end StackMapFrame

namespace LineNumber

/-- The attribute of a body that lists its lines. -/
def tableName : String := "LineNumberTable"

/-- The lines behind their number. -/
def writeTable (lines : List LineNumber) : Bytes := .counted write lines

/-- The lines in the body of an attribute. -/
def readTable (body : Bytes) : Except DecodeFault (List LineNumber) :=
  (Reader.counted read).whole tableName body

end LineNumber

namespace VariableEntry

/-- The attribute of a body that lists its variables, with their generic types or without. -/
def tableName (isGeneric : Bool) : String :=
  if isGeneric then "LocalVariableTypeTable" else "LocalVariableTable"

/-- The variables behind their number. -/
def writeTable (entries : List VariableEntry) : Bytes := .counted write entries

/-- The variables in the body of an attribute. -/
def readTable (isGeneric : Bool) (body : Bytes) : Except DecodeFault (List VariableEntry) :=
  (Reader.counted read).whole (tableName isGeneric) body

end VariableEntry

end FreshLocal
