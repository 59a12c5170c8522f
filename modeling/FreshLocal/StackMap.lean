import FreshLocal.ClassFile
import FreshLocal.Frame

/-!
# The binary form of stack maps

A stack map lists the frames of a method. The place of a frame is given by how
far it is behind the frame before: the first frame by its offset, each later
one by the number of bytes between the two places, less one.

* `StackMapFrame.write`, `StackMapFrame.read`: a frame with its distance.
* `StackMapFrame.withOffsetsOnto`: distances as offsets.
* `StackMapFrame.distance`: an offset as a distance.
-/

namespace FreshLocal

/-- A type as it is stored, with a class by its index and a position by its offset. -/
abbrev StoredType := VerificationType PoolIndex UInt16

namespace StoredType

/-- A tag, then the class or the offset of the types that have one. -/
def write : StoredType → Bytes
  | .top => .u8 0
  | .integer => .u8 1
  | .float => .u8 2
  | .double => .u8 3
  | .long => .u8 4
  | .null => .u8 5
  | .uninitializedThis => .u8 6
  | .object index => .u8 7 ++ .u16 index
  | .uninitialized offset => .u8 8 ++ .u16 offset

/-- A tag, then the class or the offset of the types that have one. -/
def read : Reader StoredType := do
  let tag ← Reader.u8
  match tag with
  | 0 => pure .top
  | 1 => pure .integer
  | 2 => pure .float
  | 3 => pure .double
  | 4 => pure .long
  | 5 => pure .null
  | 6 => pure .uninitializedThis
  | 7 => .object <$> Reader.u16
  | 8 => .uninitialized <$> Reader.u16
  | _ => throw (.badVerificationType tag)

end StoredType

/-- A frame as it is stored, with its distance from the frame before. -/
structure StackMapFrame where
  distance : UInt16
  frame : Frame PoolIndex UInt16
deriving DecidableEq

namespace StackMapFrame

/-- The tag tells the kind of the frame, and also the distance where that is below 64 and the
locals stay the same. -/
def write (f : StackMapFrame) : Bytes :=
  match f.frame with
  | .same => if f.distance ≤ 63 then .u8 f.distance.toUInt8 else .u8 251 ++ .u16 f.distance
  | .sameOne t =>
    (if f.distance ≤ 63 then .u8 (f.distance.toUInt8 + 64) else .u8 247 ++ .u16 f.distance) ++
      StoredType.write t
  | .chop count => .u8 (251 - count) ++ .u16 f.distance
  | .append more =>
    .u8 (251 + UInt8.ofNat more.length) ++ .u16 f.distance ++ more.flatMap StoredType.write
  | .full locals stack =>
    .u8 255 ++ .u16 f.distance ++ .counted StoredType.write locals ++
      .counted StoredType.write stack

/-- The part of a frame behind its tag. -/
def readTagged (tag : UInt8) : Reader StackMapFrame := do
  if tag < 64 then pure ⟨tag.toUInt16, .same⟩
  else if tag < 128 then
    let t ← StoredType.read
    pure ⟨tag.toUInt16 - 64, .sameOne t⟩
  else if tag < 247 then throw (.badFrameType tag)
  else
    let distance ← Reader.u16
    if tag = 247 then
      let t ← StoredType.read
      pure ⟨distance, .sameOne t⟩
    else if tag < 251 then pure ⟨distance, .chop (251 - tag)⟩
    else if tag = 251 then pure ⟨distance, .same⟩
    else if tag < 255 then
      let more ← Reader.times (tag.toNat - 251) StoredType.read
      pure ⟨distance, .append more⟩
    else
      let locals ← Reader.counted StoredType.read
      let stack ← Reader.counted StoredType.read
      pure ⟨distance, .full locals stack⟩

/-- A frame behind its tag. -/
def read : Reader StackMapFrame := do
  readTagged (← Reader.u8)

/-- The offset of a frame, given that of the frame before. -/
def offset (before : Option Nat) (distance : Nat) : Nat :=
  match before with
  | none => distance
  | some o => o + distance + 1

/-- The distance of a frame from the frame before, or nothing if both are at one offset. -/
def distance? (before : Option Nat) (offset : Nat) : Option Nat :=
  match before with
  | none => some offset
  | some o => if o = offset then none else some (offset - o - 1)

/-- What `withOffsets` does behind a frame at the offset `before`; `done` is in reverse. -/
def withOffsetsOnto {α : Type} (before : Option Nat) :
    List (UInt16 × α) → (done : List (Nat × α)) → List (Nat × α)
  | [], done => done.reverse
  | (d, x) :: rest, done =>
    let o := offset before d.toNat
    withOffsetsOnto (some o) rest ((o, x) :: done)

/-- The offsets of frames that follow each other at the given distances. -/
def withOffsets {α : Type} (frames : List (UInt16 × α)) : List (Nat × α) :=
  withOffsetsOnto none frames []

end StackMapFrame

end FreshLocal
