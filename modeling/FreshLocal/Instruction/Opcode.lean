import FreshLocal.Instruction

/-!
# Opcodes

The first byte of an instruction says which instruction it is, and in which
form. This table is all that the reading and the writing of instructions share.

* `Opcode.byte`: the byte of an opcode.
* `Opcode.ofByte?`: the opcode of a byte; some bytes are none.
-/

namespace FreshLocal

/-- A form of an instruction. -/
inductive Opcode
  | nullary (op : NullaryOp)
  | bipush | sipush
  /-- A constant by an index of one byte. -/
  | ldc
  /-- A constant by an index of two bytes. -/
  | ldcW
  | ldc2W
  | load (kind : ValueKind)
  /-- A load from one of the first four slots. -/
  | loadShort (kind : ValueKind) (slot : Fin 4)
  | store (kind : ValueKind)
  /-- A store into one of the first four slots. -/
  | storeShort (kind : ValueKind) (slot : Fin 4)
  | iinc | ret
  | jump (condition : Condition)
  | goto | jsr
  /-- A jump with a distance of 32 bits. -/
  | gotoW
  | jsrW
  | tableSwitch | lookupSwitch
  | exit (exit : Exit)
  | field (access : FieldAccess)
  | invokeVirtual | invokeSpecial | invokeStatic | invokeInterface | invokeDynamic
  | ofClass (use : ClassUse)
  | newArray | multiNewArray
  /-- The instruction behind it has operands of twice the size. -/
  | wide
deriving DecidableEq

/-- The place of a kind in each run of opcodes that differ in it. -/
def ValueKind.rank : ValueKind → UInt8
  | int => 0
  | long => 1
  | float => 2
  | double => 3
  | reference => 4

/-- The kind at a place in a run of opcodes. -/
def ValueKind.ofRank? : UInt8 → Option ValueKind
  | 0 => some int
  | 1 => some long
  | 2 => some float
  | 3 => some double
  | 4 => some reference
  | _ => none

/-- The opcode of the load with a slot operand. -/
def ValueKind.loadByte (k : ValueKind) : UInt8 := 0x15 + k.rank

/-- The opcode of the store with a slot operand. -/
def ValueKind.storeByte (k : ValueKind) : UInt8 := 0x36 + k.rank

/-- The place of a comparison in a run of opcodes. -/
def Order.rank : Order → UInt8
  | eq => 0
  | ne => 1
  | lt => 2
  | ge => 3
  | gt => 4
  | le => 5

/-- The comparison at a place in a run of opcodes. -/
def Order.ofRank? : UInt8 → Option Order
  | 0 => some eq
  | 1 => some ne
  | 2 => some lt
  | 3 => some ge
  | 4 => some gt
  | 5 => some le
  | _ => none

/-- The place of a comparison in a run of opcodes. -/
def Equality.rank : Equality → UInt8
  | eq => 0
  | ne => 1

/-- The opcode of the jump on a condition. -/
def Condition.opcode : Condition → UInt8
  | zero order => 0x99 + order.rank
  | numbers order => 0x9f + order.rank
  | references equality => 0xa5 + equality.rank
  | null equality => 0xc6 + equality.rank

/-- The opcode of an exit. -/
def Exit.opcode : Exit → UInt8
  | ireturn => 0xac
  | lreturn => 0xad
  | freturn => 0xae
  | dreturn => 0xaf
  | areturn => 0xb0
  | returnVoid => 0xb1
  | athrow => 0xbf

/-- The opcode of a field access. -/
def FieldAccess.opcode : FieldAccess → UInt8
  | getStatic => 0xb2
  | putStatic => 0xb3
  | getField => 0xb4
  | putField => 0xb5

/-- The opcode of a use of a class. -/
def ClassUse.opcode : ClassUse → UInt8
  | new => 0xbb
  | newArray => 0xbd
  | checkCast => 0xc0
  | instanceOf => 0xc1

namespace Opcode

/-- The byte of an opcode. -/
def byte : Opcode → UInt8
  | nullary op => op.opcode
  | bipush => 0x10
  | sipush => 0x11
  | ldc => 0x12
  | ldcW => 0x13
  | ldc2W => 0x14
  | load kind => kind.loadByte
  | loadShort kind slot => 0x1a + 4 * kind.rank + UInt8.ofNat slot.val
  | store kind => kind.storeByte
  | storeShort kind slot => 0x3b + 4 * kind.rank + UInt8.ofNat slot.val
  | iinc => 0x84
  | ret => 0xa9
  | jump condition => condition.opcode
  | goto => 0xa7
  | jsr => 0xa8
  | gotoW => 0xc8
  | jsrW => 0xc9
  | tableSwitch => 0xaa
  | lookupSwitch => 0xab
  | exit e => e.opcode
  | field access => access.opcode
  | invokeVirtual => 0xb6
  | invokeSpecial => 0xb7
  | invokeStatic => 0xb8
  | invokeInterface => 0xb9
  | invokeDynamic => 0xba
  | ofClass use => use.opcode
  | newArray => 0xbc
  | multiNewArray => 0xc5
  | wide => 0xc4

/-- The opcodes that carry no parameter, and those at the end of a run of them. -/
def single? : UInt8 → Option Opcode
  | 0x10 => some bipush
  | 0x11 => some sipush
  | 0x12 => some ldc
  | 0x13 => some ldcW
  | 0x14 => some ldc2W
  | 0x84 => some iinc
  | 0xa5 => some (jump (.references .eq))
  | 0xa6 => some (jump (.references .ne))
  | 0xa7 => some goto
  | 0xa8 => some jsr
  | 0xa9 => some ret
  | 0xaa => some tableSwitch
  | 0xab => some lookupSwitch
  | 0xac => some (exit .ireturn)
  | 0xad => some (exit .lreturn)
  | 0xae => some (exit .freturn)
  | 0xaf => some (exit .dreturn)
  | 0xb0 => some (exit .areturn)
  | 0xb1 => some (exit .returnVoid)
  | 0xb2 => some (field .getStatic)
  | 0xb3 => some (field .putStatic)
  | 0xb4 => some (field .getField)
  | 0xb5 => some (field .putField)
  | 0xb6 => some invokeVirtual
  | 0xb7 => some invokeSpecial
  | 0xb8 => some invokeStatic
  | 0xb9 => some invokeInterface
  | 0xba => some invokeDynamic
  | 0xbb => some (ofClass .new)
  | 0xbc => some newArray
  | 0xbd => some (ofClass .newArray)
  | 0xbf => some (exit .athrow)
  | 0xc0 => some (ofClass .checkCast)
  | 0xc1 => some (ofClass .instanceOf)
  | 0xc4 => some wide
  | 0xc5 => some multiNewArray
  | 0xc6 => some (jump (.null .eq))
  | 0xc7 => some (jump (.null .ne))
  | 0xc8 => some gotoW
  | 0xc9 => some jsrW
  | _ => none

/-- The slot at a place in a run of short opcodes, which are in fours. -/
def shortSlot (place : UInt8) : Fin 4 := ⟨place.toNat % 4, Nat.mod_lt _ (by decide)⟩

/-- The opcode of a byte. -/
def ofByte? (b : UInt8) : Option Opcode :=
  if h : IsNullaryOpcode b then some (nullary ⟨b, h⟩)
  else if 0x15 ≤ b ∧ b ≤ 0x19 then load <$> ValueKind.ofRank? (b - 0x15)
  else if 0x1a ≤ b ∧ b ≤ 0x2d then
    (loadShort · (shortSlot (b - 0x1a))) <$> ValueKind.ofRank? ((b - 0x1a) / 4)
  else if 0x36 ≤ b ∧ b ≤ 0x3a then store <$> ValueKind.ofRank? (b - 0x36)
  else if 0x3b ≤ b ∧ b ≤ 0x4e then
    (storeShort · (shortSlot (b - 0x3b))) <$> ValueKind.ofRank? ((b - 0x3b) / 4)
  else if 0x99 ≤ b ∧ b ≤ 0x9e then (jump ∘ .zero) <$> Order.ofRank? (b - 0x99)
  else if 0x9f ≤ b ∧ b ≤ 0xa4 then (jump ∘ .numbers) <$> Order.ofRank? (b - 0x9f)
  else single? b

/-- A byte that is an opcode is the byte of that opcode. -/
theorem byte_of_ofByte? {b : UInt8} {o : Opcode} (h : ofByte? b = some o) : o.byte = b := by
  have key : ∀ n : Fin 256, ∀ o ∈ ofByte? (UInt8.ofNat n.val), o.byte = UInt8.ofNat n.val := by
    decide +kernel
  have := key ⟨b.toNat, b.toNat_lt⟩ o (by simpa using h)
  simpa using this

/-- Each opcode is that of its byte. -/
theorem ofByte?_byte (o : Opcode) : ofByte? o.byte = some o := by
  cases o with
  | nullary op => simp [byte, ofByte?, op.isNullary]
  | loadShort kind slot => revert slot; cases kind <;> decide +kernel
  | storeShort kind slot => revert slot; cases kind <;> decide +kernel
  | load kind => cases kind <;> decide +kernel
  | store kind => cases kind <;> decide +kernel
  | jump c =>
    cases c with
    | zero o => cases o <;> decide +kernel
    | numbers o => cases o <;> decide +kernel
    | references e => cases e <;> decide +kernel
    | null e => cases e <;> decide +kernel
  | exit e => cases e <;> decide +kernel
  | field a => cases a <;> decide +kernel
  | ofClass u => cases u <;> decide +kernel
  | _ => decide +kernel

end Opcode

end FreshLocal
