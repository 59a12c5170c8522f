import FreshLocal.Bytes

/-!
# Type annotations of code

An annotation of a type inside a method body says which part of the body it
belongs to, by positions in the code and by slots of local variables. The rest
of it, a path into the type and the annotation itself, is kept as bytes.

* `AnnotationTarget`, `AnnotatedType`: the types, over how a position is given.
* `skipValue`, `skipBody`: readers that pass over an annotation.
* `writeTable`, `readTable`: the body of the attribute that lists annotations.
-/

namespace FreshLocal

/-- Where in the code a local variable has the annotated type. -/
structure LocalRange (π : Type) where
  start : π
  /-- The position behind the last one of the range. -/
  stop : π
  slot : UInt16
deriving DecidableEq

/-- The part of a method body that an annotated type belongs to. -/
inductive AnnotationTarget (π : Type)
  /-- The declaration of a local variable, or of a resource to be closed. -/
  | localVariable (isResource : Bool) (ranges : List (LocalRange π))
  /-- An exception handler, by its place in the table. -/
  | handler (index : UInt16)
  /-- An instruction that names the type. -/
  | instruction (kind : UInt8) (at_ : π)
  /-- A type argument of an instruction. -/
  | typeArgument (kind : UInt8) (at_ : π) (index : UInt8)
deriving DecidableEq

/-- An annotated type inside a method body. -/
structure AnnotatedType (π : Type) where
  /-- Can the annotation be seen when the program runs? -/
  visible : Bool
  target : AnnotationTarget π
  /-- The steps into the type, two bytes each. -/
  path : Bytes
  body : Bytes
deriving DecidableEq

namespace AnnotationTarget

variable {π π' : Type} {m : Type → Type} [Monad m]

/-- The number that stands for the kind of the target. -/
def code : AnnotationTarget π → UInt8
  | localVariable isResource _ => if isResource then 0x41 else 0x40
  | handler _ => 0x42
  | instruction kind _ | typeArgument kind _ _ => kind

/-- Change how positions are given. -/
def mapM (f : π → m π') : AnnotationTarget π → m (AnnotationTarget π')
  | localVariable isResource ranges =>
    localVariable isResource <$> ranges.mapM fun r => do
      let start ← f r.start
      let stop ← f r.stop
      pure ⟨start, stop, r.slot⟩
  | handler index => pure (handler index)
  | instruction kind at_ => instruction kind <$> f at_
  | typeArgument kind at_ index => (typeArgument kind · index) <$> f at_

/-- Change the slots of local variables. -/
def mapSlotsM (f : UInt16 → m UInt16) : AnnotationTarget π → m (AnnotationTarget π)
  | localVariable isResource ranges =>
    localVariable isResource <$> ranges.mapM fun r => do
      let slot ← f r.slot
      pure { r with slot }
  | target => pure target

/-- The positions that a target refers to. -/
def positions : AnnotationTarget π → List π
  | localVariable _ ranges => ranges.flatMap fun r => [r.start, r.stop]
  | handler _ => []
  | instruction _ at_ | typeArgument _ at_ _ => [at_]

end AnnotationTarget

namespace LocalRange

/-- A range as it is stored, by its start and its length. -/
def write (r : LocalRange UInt16) : Bytes :=
  .u16 r.start ++ .u16 (r.stop - r.start) ++ .u16 r.slot

/-- A range may not end behind the last offset that 16 bits can give. -/
def read : Reader (LocalRange UInt16) := do
  let start ← Reader.u16
  let length ← Reader.u16
  let slot ← Reader.u16
  let stop := start.toNat + length.toNat
  if stop ≤ 65535 then pure ⟨start, UInt16.ofNat stop, slot⟩ else throw (.invalidCodeOffset stop)

end LocalRange

namespace AnnotationTarget

/-- The code of the target, then what it refers to. -/
def write (t : AnnotationTarget UInt16) : Bytes :=
  .u8 t.code ++
    match t with
    | localVariable _ ranges => .counted LocalRange.write ranges
    | handler index => .u16 index
    | instruction _ at_ => .u16 at_
    | typeArgument _ at_ index => .u16 at_ ++ .u8 index

/-- The code tells what the target refers to. -/
def read : Reader (AnnotationTarget UInt16) := do
  let code ← Reader.u8
  if code = 0x40 ∨ code = 0x41 then
    localVariable (code = 0x41) <$> Reader.counted LocalRange.read
  else if code = 0x42 then handler <$> Reader.u16
  else if 0x43 ≤ code ∧ code ≤ 0x46 then instruction code <$> Reader.u16
  else if 0x47 ≤ code ∧ code ≤ 0x4B then typeArgument code <$> Reader.u16 <*> Reader.u8
  else throw (.badTypeAnnotationTarget code)

end AnnotationTarget

namespace AnnotatedType

variable {π π' : Type} {m : Type → Type} [Monad m]

/-- Change how positions are given. -/
def mapM (f : π → m π') (a : AnnotatedType π) : m (AnnotatedType π') := do
  let target ← a.target.mapM f
  pure ⟨a.visible, target, a.path, a.body⟩

/-- Change the slots of local variables. -/
def mapSlotsM (f : UInt16 → m UInt16) (a : AnnotatedType π) : m (AnnotatedType π) := do
  let target ← a.target.mapSlotsM f
  pure { a with target }

/-- Pass over an annotation, with `value` to pass over the value of an element. -/
def skipBody (value : Reader Unit) : Reader Unit := do
  let _ ← Reader.u16
  let pairs ← Reader.u16
  let _ ← Reader.times pairs.toNat do
    let _ ← Reader.u16
    value

/-- The letters of the element values that are one index. -/
def isPlainValue (tag : UInt8) : Bool :=
  tag = 0x42 || tag = 0x43 || tag = 0x44 || tag = 0x46 || tag = 0x49 || tag = 0x4A ||
    tag = 0x53 || tag = 0x5A || tag = 0x73 || tag = 0x63

/-- Pass over the value of an element. Values nest, and each takes at least one byte, so they
nest no deeper than there are bytes in `room`, the bytes ahead of the first of them. -/
def skipValue : (room : Bytes) → Reader Unit
  | [] => throw .truncated
  | _ :: room => do
    let tag ← Reader.u8
    if isPlainValue tag then
      let _ ← Reader.u16
    else if tag = 0x65 then
      let _ ← Reader.u16
      let _ ← Reader.u16
    else if tag = 0x40 then skipBody (skipValue room)
    else if tag = 0x5B then
      let n ← Reader.u16
      let _ ← Reader.times n.toNat (skipValue room)
    else throw (.badElementValueTag tag)

/-- The bytes of the annotation ahead. -/
def readBody : Reader Bytes := fun c =>
  match skipBody (skipValue c.ahead) c with
  | .error fault => .error fault
  | .ok ((), c') => .ok (c.ahead.take (c'.offset - c.offset), c')

/-- The target, the number of steps of the path, the path, and the annotation. -/
def write (a : AnnotatedType UInt16) : Bytes :=
  a.target.write ++ .u8 (UInt8.ofNat (a.path.length / 2)) ++ a.path ++ a.body

/-- An annotation of a table, which says whether its annotations are visible. -/
def read (visible : Bool) : Reader (AnnotatedType UInt16) := do
  let target ← AnnotationTarget.read
  let steps ← Reader.u8
  let path ← Reader.bytes (2 * steps.toNat)
  let body ← readBody
  pure ⟨visible, target, path, body⟩

/-- The name of the attribute that lists the visible annotations, or the others. -/
def tableName (visible : Bool) : String :=
  if visible then "RuntimeVisibleTypeAnnotations" else "RuntimeInvisibleTypeAnnotations"

/-- The annotations behind their number. -/
def writeTable (annotations : List (AnnotatedType UInt16)) : Bytes :=
  .counted write annotations

/-- The annotations in the body of an attribute. -/
def readTable (visible : Bool) (body : Bytes) :
    Except DecodeFault (List (AnnotatedType UInt16)) :=
  (Reader.counted (read visible)).whole (tableName visible) body

end AnnotatedType

end FreshLocal
