import FreshLocal.Instruction.Opcode

/-!
# Instructions as bytes

Each instruction is written in the shortest of its forms. A branch is written
with the distances of its targets from its own offset, and the operands of a
switch start at a multiple of four bytes from the start of the code.

* `Instruction.encode`, `Branch.encode`: the bytes.
* `Instruction.width`, `Branch.width`: how many they are, without writing them.
-/

namespace FreshLocal

namespace Instruction

/-- An access to a slot, which takes one byte if it can and otherwise a `wide` and two. -/
def encodeSlot (op : Opcode) (slot : UInt16) : Bytes :=
  if slot ≤ 255 then [op.byte, slot.toUInt8]
  else Opcode.wide.byte :: op.byte :: Bytes.u16 slot

/-- An access to a slot that has a short form for the first four. -/
def encodeLocal (short : Fin 4 → Opcode) (op : Opcode) (slot : UInt16) : Bytes :=
  if h : slot.toNat < 4 then [(short ⟨slot.toNat, h⟩).byte] else encodeSlot op slot

/-- Do the operands of an increment take one byte each? -/
def isSmallIncrement (slot : UInt16) (amount : Int16) : Bool :=
  slot ≤ 255 && -128 ≤ amount && amount ≤ 127

/-- The bytes of an instruction. -/
def encode : Instruction → Bytes
  | nullary op => [(Opcode.nullary op).byte]
  | bipush value => Opcode.bipush.byte :: Bytes.i8 value
  | sipush value => Opcode.sipush.byte :: Bytes.i16 value
  | ldc index =>
    if index ≤ 255 then [Opcode.ldc.byte, index.toUInt8] else Opcode.ldcW.byte :: Bytes.u16 index
  | ldc2 index => Opcode.ldc2W.byte :: Bytes.u16 index
  | load kind slot => encodeLocal (.loadShort kind) (.load kind) slot
  | store kind slot => encodeLocal (.storeShort kind) (.store kind) slot
  | iinc slot amount =>
    if isSmallIncrement slot amount then
      Opcode.iinc.byte :: slot.toUInt8 :: Bytes.i8 amount.toInt8
    else Opcode.wide.byte :: Opcode.iinc.byte :: (Bytes.u16 slot ++ Bytes.i16 amount)
  | ret slot => encodeSlot .ret slot
  | field access index => (Opcode.field access).byte :: Bytes.u16 index
  | invoke .virtual index => Opcode.invokeVirtual.byte :: Bytes.u16 index
  | invoke .special index => Opcode.invokeSpecial.byte :: Bytes.u16 index
  | invoke .static index => Opcode.invokeStatic.byte :: Bytes.u16 index
  | invoke (.interface count) index =>
    Opcode.invokeInterface.byte :: (Bytes.u16 index ++ [count, 0])
  | invokeDynamic index => Opcode.invokeDynamic.byte :: (Bytes.u16 index ++ [0, 0])
  | ofClass use index => (Opcode.ofClass use).byte :: Bytes.u16 index
  | newArray type => [Opcode.newArray.byte, type.arrayCode]
  | multiNewArray index dimensions => Opcode.multiNewArray.byte :: (Bytes.u16 index ++ [dimensions])

/-- How many bytes an instruction takes. -/
def width : Instruction → Nat
  | nullary _ => 1
  | bipush _ | newArray _ => 2
  | ldc index => if index ≤ 255 then 2 else 3
  | load _ slot | store _ slot => if slot ≤ 3 then 1 else if slot ≤ 255 then 2 else 4
  | ret slot => if slot ≤ 255 then 2 else 4
  | iinc slot amount => if isSmallIncrement slot amount then 3 else 6
  | multiNewArray _ _ => 4
  | invoke (.interface _) _ | invokeDynamic _ => 5
  | sipush _ | ldc2 _ | field _ _ | invoke _ _ | ofClass _ _ => 3

end Instruction

/-- How many bytes stand between the opcode of a switch and its operands. -/
def operandPadding (offset : Nat) : Nat := (4 - (offset + 1) % 4) % 4

namespace Branch

/-- How many bytes a branch takes at an offset; `wide` asks for the wide form, if there is one. -/
def width {π : Type} (offset : Nat) (wide : Bool) : Branch π → Nat
  | exit _ => 1
  | jump _ _ => 3
  | goto _ | jsr _ => if wide then 5 else 3
  | tableSwitch _ _ targets => 1 + operandPadding offset + 4 * (3 + targets.length)
  | lookupSwitch _ cases => 1 + operandPadding offset + 8 * (1 + cases.length)

/-- The bytes of a branch at an offset, given the distances of its targets. A distance of 16
bits keeps only its low bits. -/
def encode (offset : Nat) (wide : Bool) : Branch Int32 → Bytes
  | exit e => [(Opcode.exit e).byte]
  | jump condition distance => (Opcode.jump condition).byte :: Bytes.i16 distance.toInt16
  | goto distance =>
    if wide then Opcode.gotoW.byte :: Bytes.i32 distance
    else Opcode.goto.byte :: Bytes.i16 distance.toInt16
  | jsr distance =>
    if wide then Opcode.jsrW.byte :: Bytes.i32 distance
    else Opcode.jsr.byte :: Bytes.i16 distance.toInt16
  | tableSwitch default_ low targets =>
    Opcode.tableSwitch.byte :: (List.replicate (operandPadding offset) 0 ++ Bytes.i32 default_ ++
      Bytes.i32 low ++ Bytes.i32 (low + Int32.ofNat targets.length - 1) ++
      targets.flatMap Bytes.i32)
  | lookupSwitch default_ cases =>
    Opcode.lookupSwitch.byte :: (List.replicate (operandPadding offset) 0 ++ Bytes.i32 default_ ++
      Bytes.i32 (Int32.ofNat cases.length) ++
      cases.flatMap fun (key, distance) => Bytes.i32 key ++ Bytes.i32 distance)

end Branch

end FreshLocal
