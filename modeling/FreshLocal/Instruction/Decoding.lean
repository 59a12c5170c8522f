import FreshLocal.Instruction.Encoding
import FreshLocal.OffsetVec

/-!
# Bytes as instructions

The code of a method is read from its first byte to its last, instruction after
instruction. The distances of branches become offsets, and each of these has to
be the start of an instruction.

* `Operation.read`: the instruction ahead of a cursor.
* `disassemble`: the instructions of a method with the offsets they start at.
* `startOffsets`, `requireStart`: the offsets at which an instruction starts.
-/

namespace FreshLocal

/-- The offset at a distance from the offset `start`, which has to be inside the code. -/
def jumpTarget (length start : Nat) (distance : Int) : Except DecodeFault Nat :=
  let target := (start : Int) + distance
  if 0 ≤ target ∧ target < length then .ok target.toNat
  else .error (.invalidCodeOffset target.toNat)

namespace Operation

variable {π : Type}

/-- The instruction behind a `wide`. -/
def readWide : Reader Instruction := do
  let b ← Reader.u8
  match Opcode.ofByte? b with
  | some (.load kind) => .load kind <$> Reader.u16
  | some (.store kind) => .store kind <$> Reader.u16
  | some .ret => .ret <$> Reader.u16
  | some .iinc => .iinc <$> Reader.u16 <*> Reader.i16
  | _ => throw (.badWideOpcode b)

/-- A target at a distance of 16 bits. -/
def readNear (length start : Nat) : Reader Nat := do
  let distance ← Reader.i16
  jumpTarget length start distance.toInt

/-- A target at a distance of 32 bits. -/
def readFar (length start : Nat) : Reader Nat := do
  let distance ← Reader.i32
  jumpTarget length start distance.toInt

/-- A key of a switch and its target. -/
def readCase (length start : Nat) : Reader (Int32 × Nat) := do
  let key ← Reader.i32
  let target ← readFar length start
  pure (key, target)

/-- The targets of a switch cannot be more than the bytes of the code. -/
def readTableSwitch (length start : Nat) : Reader (Branch Nat) := do
  let _ ← Reader.bytes (operandPadding start)
  let default_ ← readFar length start
  let low ← Reader.i32
  let high ← Reader.i32
  let count := high.toInt - low.toInt + 1
  if count < 1 ∨ length < count then throw (.malformedSwitch start)
  let targets ← Reader.times count.toNat (readFar length start)
  pure (.tableSwitch default_ low targets)

/-- The cases of a switch cannot be more than the bytes of the code. -/
def readLookupSwitch (length start : Nat) : Reader (Branch Nat) := do
  let _ ← Reader.bytes (operandPadding start)
  let default_ ← readFar length start
  let count ← Int32.toInt <$> Reader.i32
  if count < 0 ∨ length < count then throw (.malformedSwitch start)
  let cases ← Reader.times count.toNat (readCase length start)
  pure (.lookupSwitch default_ cases)

/-- The operands of the instruction with a given opcode. -/
def readOperands (length start : Nat) : Opcode → Reader (Operation Nat)
  | .nullary op => pure (plain (.nullary op))
  | .bipush => (plain ∘ .bipush) <$> Reader.i8
  | .sipush => (plain ∘ .sipush) <$> Reader.i16
  | .ldc => (plain ∘ .ldc ∘ UInt8.toUInt16) <$> Reader.u8
  | .ldcW => (plain ∘ .ldc) <$> Reader.u16
  | .ldc2W => (plain ∘ .ldc2) <$> Reader.u16
  | .load kind => (plain ∘ .load kind ∘ UInt8.toUInt16) <$> Reader.u8
  | .loadShort kind slot => pure (plain (.load kind (UInt16.ofNat slot.val)))
  | .store kind => (plain ∘ .store kind ∘ UInt8.toUInt16) <$> Reader.u8
  | .storeShort kind slot => pure (plain (.store kind (UInt16.ofNat slot.val)))
  | .iinc => do
    let slot ← Reader.u8
    let amount ← Reader.i8
    pure (plain (.iinc slot.toUInt16 amount.toInt16))
  | .ret => (plain ∘ .ret ∘ UInt8.toUInt16) <$> Reader.u8
  | .jump condition => (branch ∘ .jump condition) <$> readNear length start
  | .goto => (branch ∘ .goto) <$> readNear length start
  | .jsr => (branch ∘ .jsr) <$> readNear length start
  | .gotoW => (branch ∘ .goto) <$> readFar length start
  | .jsrW => (branch ∘ .jsr) <$> readFar length start
  | .tableSwitch => branch <$> readTableSwitch length start
  | .lookupSwitch => branch <$> readLookupSwitch length start
  | .exit e => pure (branch (.exit e))
  | .field access => (plain ∘ .field access) <$> Reader.u16
  | .invokeVirtual => (plain ∘ .invoke .virtual) <$> Reader.u16
  | .invokeSpecial => (plain ∘ .invoke .special) <$> Reader.u16
  | .invokeStatic => (plain ∘ .invoke .static) <$> Reader.u16
  | .invokeInterface => do
    let index ← Reader.u16
    let count ← Reader.u8
    let _ ← Reader.u8
    pure (plain (.invoke (.interface count) index))
  | .invokeDynamic => do
    let index ← Reader.u16
    let _ ← Reader.u16
    pure (plain (.invokeDynamic index))
  | .ofClass use => (plain ∘ .ofClass use) <$> Reader.u16
  | .newArray => do
    let code ← Reader.u8
    match BaseType.ofArrayCode? code with
    | some type => pure (plain (.newArray type))
    | none => throw (.badArrayType code)
  | .multiNewArray => do
    let index ← Reader.u16
    let dimensions ← Reader.u8
    pure (plain (.multiNewArray index dimensions))
  | .wide => plain <$> readWide

/-- The instruction ahead, in a code of the given length, with the offset it starts at. -/
def read (length : Nat) : Reader (Nat × Operation Nat) := do
  let start ← Reader.offset
  let b ← Reader.u8
  match Opcode.ofByte? b with
  | none => throw (.unknownOpcode b)
  | some op =>
    let operation ← readOperands length start op
    pure (start, operation)

end Operation

/-- The offsets at which an instruction starts, in the order of the instructions. -/
def startOffsets {α : Type} (instructions : List (Nat × α)) : Array Nat :=
  (instructions.map Prod.fst).toArray

/-- Is an offset among those that ascend? -/
def hasStart (starts : Array Nat) (offset : Nat) : Bool :=
  (searchBy id starts offset 0 starts.size (Nat.le_refl _)).isSome

/-- An offset has to be the start of an instruction. -/
def requireStart (starts : Array Nat) (offset : Nat) : Except DecodeFault Unit :=
  if hasStart starts offset then .ok () else .error (.invalidCodeOffset offset)

/-- The instructions of a method, each with the offset it starts at. -/
def disassemble (code : Bytes) : Except DecodeFault (List (Nat × Operation Nat)) := do
  let (instructions, _) ← Reader.untilEnd (Operation.read code.length) (.start code)
  let starts := startOffsets instructions
  match (instructions.flatMap (·.2.targets)).find? (!hasStart starts ·) with
  | some target => throw (.invalidCodeOffset target)
  | none => pure instructions

end FreshLocal
