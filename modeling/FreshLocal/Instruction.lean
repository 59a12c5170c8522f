import FreshLocal.Constant
import FreshLocal.Descriptor

/-!
# Instructions

The instructions of a method body, in a form that hides how many bytes they
take: the short and wide forms of one instruction are one constructor here, and
so are `goto` and `goto_w`. An instruction that leaves the straight path is a
**branch**; it is over a parameter `π`, how a position in the code is given.

* `Instruction`, `Branch`, `Operation`: the types.
* `Instruction.slot?`, `Instruction.mapSlotM`: the local variable it names.
* `Branch.targets`, `Branch.mapM`: the positions it may jump to.
-/

namespace FreshLocal

/-- The opcodes of the instructions without operands that go on with the next instruction. -/
def IsNullaryOpcode (b : UInt8) : Prop :=
  b ≤ 0x0f ∨ (0x2e ≤ b ∧ b ≤ 0x35) ∨ (0x4f ≤ b ∧ b ≤ 0x83) ∨ (0x85 ≤ b ∧ b ≤ 0x98) ∨
    b = 0xbe ∨ b = 0xc2 ∨ b = 0xc3

instance (b : UInt8) : Decidable (IsNullaryOpcode b) := by unfold IsNullaryOpcode; infer_instance

/-- An instruction without operands that goes on with the next instruction is its opcode. -/
structure NullaryOp where
  opcode : UInt8
  isNullary : IsNullaryOpcode opcode
deriving DecidableEq

namespace NullaryOp

/-- Push the number minus one. -/
def iconstM1 : NullaryOp := ⟨0x02, by decide⟩

/-- The instruction with a given opcode. -/
def ofOpcode? (b : UInt8) : Option NullaryOp :=
  if h : IsNullaryOpcode b then some ⟨b, h⟩ else none

end NullaryOp

/-- The kinds of values that instructions tell apart in local variables. -/
inductive ValueKind
  | int | long | float | double | reference
deriving DecidableEq

/-- A value of kind `long` or `double` takes two slots. -/
def ValueKind.width : ValueKind → Nat
  | long | double => 2
  | _ => 1

/-- What is done with a field. -/
inductive FieldAccess
  | getStatic | putStatic | getField | putField
deriving DecidableEq

/-- How a method is found. -/
inductive InvokeKind
  | virtual | special | static
  /-- The number of slots of the arguments is written with the instruction. -/
  | interface (count : UInt8)
deriving DecidableEq

/-- What is done with a class. -/
inductive ClassUse
  | new | newArray | checkCast | instanceOf
deriving DecidableEq

/-- An instruction that goes on with the next instruction, other than a conditional jump. -/
inductive Instruction
  | nullary (op : NullaryOp)
  | bipush (value : Int8)
  | sipush (value : Int16)
  | ldc (index : PoolIndex)
  | ldc2 (index : PoolIndex)
  | load (kind : ValueKind) (slot : UInt16)
  | store (kind : ValueKind) (slot : UInt16)
  | iinc (slot : UInt16) (amount : Int16)
  | ret (slot : UInt16)
  | field (access : FieldAccess) (index : PoolIndex)
  | invoke (kind : InvokeKind) (index : PoolIndex)
  | invokeDynamic (index : PoolIndex)
  | ofClass (use : ClassUse) (index : PoolIndex)
  | newArray (type : BaseType)
  | multiNewArray (index : PoolIndex) (dimensions : UInt8)
deriving DecidableEq

namespace Instruction

variable {m : Type → Type} [Monad m]

/-- The first slot of the local variable that the instruction reads or writes. -/
def slot? : Instruction → Option UInt16
  | load _ slot | store _ slot | iinc slot _ | ret slot => some slot
  | _ => none

/-- Change the slot of the local variable that the instruction reads or writes. -/
def mapSlotM (f : UInt16 → m UInt16) : Instruction → m Instruction
  | load kind slot => load kind <$> f slot
  | store kind slot => store kind <$> f slot
  | iinc slot amount => (iinc · amount) <$> f slot
  | ret slot => ret <$> f slot
  | other => pure other

end Instruction

/-- How two numbers are compared. -/
inductive Order
  | eq | ne | lt | ge | gt | le
deriving DecidableEq

/-- The comparison with the opposite outcome. -/
def Order.negate : Order → Order
  | eq => ne
  | ne => eq
  | lt => ge
  | ge => lt
  | gt => le
  | le => gt

/-- How two references are compared. -/
inductive Equality
  | eq | ne
deriving DecidableEq

/-- The comparison with the opposite outcome. -/
def Equality.negate : Equality → Equality
  | eq => ne
  | ne => eq

/-- The condition of a jump, on the top of the stack. -/
inductive Condition
  /-- A number against zero. -/
  | zero (order : Order)
  /-- Two numbers. -/
  | numbers (order : Order)
  /-- Two references. -/
  | references (equality : Equality)
  /-- A reference against `null`. -/
  | null (equality : Equality)
deriving DecidableEq

/-- How a method is left. -/
inductive Exit
  | ireturn | lreturn | freturn | dreturn | areturn | returnVoid | athrow
deriving DecidableEq

/-- An instruction that may go on elsewhere than with the next instruction. -/
inductive Branch (π : Type)
  | jump (condition : Condition) (target : π)
  | goto (target : π)
  | jsr (target : π)
  /-- The targets are for the keys from `low` on. -/
  | tableSwitch (default_ : π) (low : Int32) (targets : List π)
  | lookupSwitch (default_ : π) (cases : List (Int32 × π))
  | exit (exit : Exit)
deriving DecidableEq

namespace Branch

variable {π π' : Type} {m : Type → Type} [Monad m]

/-- The positions that the branch may go to. -/
def targets : Branch π → List π
  | jump _ target | goto target | jsr target => [target]
  | tableSwitch default_ _ targets => default_ :: targets
  | lookupSwitch default_ cases => default_ :: cases.map Prod.snd
  | exit _ => []

/-- Change how positions are given. -/
def mapM (f : π → m π') : Branch π → m (Branch π')
  | jump condition target => jump condition <$> f target
  | goto target => goto <$> f target
  | jsr target => jsr <$> f target
  | tableSwitch default_ low targets => do
    let default_ ← f default_
    let targets ← targets.mapM f
    pure (tableSwitch default_ low targets)
  | lookupSwitch default_ cases => do
    let default_ ← f default_
    let cases ← cases.mapM fun (key, target) => (key, ·) <$> f target
    pure (lookupSwitch default_ cases)
  | exit e => pure (exit e)

/-- Does the branch have a form with a distance of 32 bits beside that of 16 bits? -/
def isWidenable : Branch π → Bool
  | goto _ | jsr _ => true
  | _ => false

/-- Are the distances of the branch always of 32 bits? -/
def isSwitch : Branch π → Bool
  | tableSwitch .. | lookupSwitch .. => true
  | _ => false

end Branch

/-- An instruction of either sort. -/
inductive Operation (π : Type)
  | plain (instruction : Instruction)
  | branch (branch : Branch π)
deriving DecidableEq

namespace Operation

variable {π π' : Type} {m : Type → Type} [Monad m]

/-- The positions that the operation may jump to. -/
def targets : Operation π → List π
  | plain _ => []
  | branch b => b.targets

/-- Change how positions are given. -/
def mapM (f : π → m π') : Operation π → m (Operation π')
  | plain i => pure (plain i)
  | branch b => branch <$> b.mapM f

/-- Change the slot of the local variable that the operation reads or writes. -/
def mapSlotM (f : UInt16 → m UInt16) : Operation π → m (Operation π)
  | plain i => plain <$> i.mapSlotM f
  | branch b => pure (branch b)

end Operation

end FreshLocal
