import FreshLocal.Proofs.Positions
import FreshLocal.Proofs.Reading

/-!
# Instructions as bytes

The short forms of an instruction are read as the instruction itself, so reading
gives back what was written.

* `Instruction.length_encode`: the width of an instruction is the number of its bytes.
* `Operation.finds_plain`: **an instruction is read back from its bytes**.
-/

namespace FreshLocal

open Reader

variable {o length : Nat}

theorem Int16.toInt16_toInt8_of_small {x : Int16} (h : -128 ≤ x) (h' : x ≤ 127) :
    x.toInt8.toInt16 = x := by
  have hx : -128 ≤ x.toInt := Int16.le_iff_toInt_le.1 h
  have hx' : x.toInt ≤ 127 := Int16.le_iff_toInt_le.1 h'
  rw [← Int16.toInt_inj, Int8.toInt_toInt16, Int16.toInt_toInt8]
  rw [Int.bmod_eq_of_le (by omega) (by omega)]

namespace Instruction

theorem length_encodeSlot (op : Opcode) (slot : UInt16) :
    (encodeSlot op slot).length = if slot ≤ 255 then 2 else 4 := by
  unfold encodeSlot
  split
  · rfl
  · simp [Bytes.length_u16]

theorem length_encodeLocal (short : Fin 4 → Opcode) (op : Opcode) (slot : UInt16) :
    (encodeLocal short op slot).length =
      if slot ≤ 3 then 1 else if slot ≤ 255 then 2 else 4 := by
  have hle : slot ≤ 3 ↔ slot.toNat < 4 := by
    rw [UInt16.le_iff_toNat_le]
    exact Nat.lt_succ_iff.symm
  unfold encodeLocal
  split
  · rename_i h; rw [if_pos (hle.2 h)]; rfl
  · rename_i h; rw [if_neg (mt hle.1 h), length_encodeSlot]

/-- **The width of an instruction** is the number of its bytes. -/
theorem length_encode (i : Instruction) : i.encode.length = i.width := by
  cases i with
  | load kind slot | store kind slot => exact length_encodeLocal _ _ slot
  | ret slot => exact length_encodeSlot _ slot
  | ldc index =>
    simp only [encode, width]
    split <;> simp [Bytes.length_u16]
  | iinc slot amount =>
    simp only [encode, width]
    split <;> simp [Bytes.length_u16, Bytes.length_i16, Bytes.i8]
  | invoke kind index => cases kind <;> simp [encode, width, Bytes.length_u16]
  | _ => simp [encode, width, Bytes.length_u16, Bytes.length_i16, Bytes.i8]

theorem width_pos (i : Instruction) : 0 < i.width := by
  unfold width
  repeat' split
  all_goals omega

end Instruction

namespace Operation

/-- **An opcode and its operands** are an operation. -/
theorem finds_operands {op : Opcode} {bs : Bytes} {operation : Operation Nat}
    (h : (readOperands length o op).Finds (o + 1) bs operation) :
    (read length).Finds o (op.byte :: bs) (o, operation) := by
  refine finds_offset.bind ((finds_u8 op.byte).bind ?_)
  rw [Opcode.ofByte?_byte]
  exact h.bind_nil (finds_pure _)

theorem finds_wide {op : Opcode} {bs : Bytes} {i : Instruction}
    (h : readWide.Finds (o + 1) (op.byte :: bs) i) :
    (read length).Finds o (Opcode.wide.byte :: op.byte :: bs) (o, .plain i) :=
  finds_operands (h.map plain)

/-- An access to a slot of one byte or two. -/
theorem finds_encodeSlot {op : Opcode} {slot : UInt16} {i : Instruction}
    (hnarrow : slot ≤ 255 → (readOperands length o op).Finds (o + 1) [slot.toUInt8] (.plain i))
    (hwide : readWide.Finds (o + 1) (op.byte :: Bytes.u16 slot) i) :
    (read length).Finds o (Instruction.encodeSlot op slot) (o, .plain i) := by
  unfold Instruction.encodeSlot
  split
  · rename_i h; exact finds_operands (hnarrow h)
  · exact finds_wide hwide

/-- An access to a slot that may have a short form. -/
theorem finds_encodeLocal {short : Fin 4 → Opcode} {op : Opcode} {slot : UInt16} {i : Instruction}
    (hshort : ∀ h : slot.toNat < 4,
      (readOperands length o (short ⟨slot.toNat, h⟩)).Finds (o + 1) [] (.plain i))
    (hnarrow : slot ≤ 255 → (readOperands length o op).Finds (o + 1) [slot.toUInt8] (.plain i))
    (hwide : readWide.Finds (o + 1) (op.byte :: Bytes.u16 slot) i) :
    (read length).Finds o (Instruction.encodeLocal short op slot) (o, .plain i) := by
  unfold Instruction.encodeLocal
  split
  · rename_i h; exact finds_operands (hshort h)
  · exact finds_encodeSlot hnarrow hwide

/-- A number of 16 bits that is small enough is read from one byte. -/
theorem finds_small {β : Type} (g : UInt16 → β) {x : UInt16} (h : x ≤ 255) :
    ((fun b => g b.toUInt16) <$> Reader.u8).Finds o [x.toUInt8] (g x) := by
  have hfound := (finds_u8 (o := o) x.toUInt8).map fun b => g b.toUInt16
  rwa [UInt16.toUInt16_toUInt8_of_le h] at hfound

/-- A number that stands in the opcode takes no bytes of its own. -/
theorem finds_none {β : Type} (g : UInt16 → β) (x : UInt16) :
    (pure (g (UInt16.ofNat x.toNat)) : Reader β).Finds o [] (g x) := by
  rw [UInt16.ofNat_toNat]
  exact finds_pure _

/-- **An instruction is read back from its bytes.** -/
theorem finds_plain (i : Instruction) : (read length).Finds o i.encode (o, .plain i) := by
  cases i with
  | nullary op => exact finds_operands (finds_pure _)
  | bipush value => exact finds_operands ((finds_i8 value).map _)
  | sipush value => exact finds_operands ((finds_i16 value).map _)
  | ldc index =>
    simp only [Instruction.encode]
    split
    · rename_i h; exact finds_operands (finds_small (plain ∘ .ldc) h)
    · exact finds_operands ((finds_u16 index).map _)
  | ldc2 index => exact finds_operands ((finds_u16 index).map _)
  | load kind slot =>
    refine finds_encodeLocal (fun _ => finds_none (plain ∘ .load kind) slot)
      (finds_small (plain ∘ .load kind)) ?_
    · refine (finds_u8 _).bind ?_
      rw [Opcode.ofByte?_byte]
      exact (finds_u16 slot).map _
  | store kind slot =>
    refine finds_encodeLocal (fun _ => finds_none (plain ∘ .store kind) slot)
      (finds_small (plain ∘ .store kind)) ?_
    · refine (finds_u8 _).bind ?_
      rw [Opcode.ofByte?_byte]
      exact (finds_u16 slot).map _
  | iinc slot amount =>
    simp only [Instruction.encode]
    split
    · rename_i h
      simp only [Instruction.isSmallIncrement, Bool.and_eq_true, decide_eq_true_eq] at h
      refine finds_operands ((finds_u8 slot.toUInt8).bind ((finds_i8 amount.toInt8).bind_nil ?_))
      rw [UInt16.toUInt16_toUInt8_of_le h.1.1, Int16.toInt16_toInt8_of_small h.1.2 h.2]
      exact finds_pure _
    · refine finds_wide ((finds_u8 _).bind ?_)
      rw [Opcode.ofByte?_byte]
      exact ((finds_u16 slot).map _).seq (finds_i16 amount)
  | ret slot =>
    refine finds_encodeSlot (finds_small (plain ∘ .ret)) ?_
    · refine (finds_u8 _).bind ?_
      rw [Opcode.ofByte?_byte]
      exact (finds_u16 slot).map _
  | field access index => exact finds_operands ((finds_u16 index).map _)
  | invoke kind index =>
    cases kind with
    | virtual | special | static => exact finds_operands ((finds_u16 index).map _)
    | interface count =>
      refine finds_operands ((finds_u16 index).bind ?_)
      exact (finds_u8 count).bind ((finds_u8 0).bind_nil (finds_pure _))
  | invokeDynamic index =>
    refine finds_operands ((finds_u16 index).bind ?_)
    exact (finds_u16 0).bind_nil (finds_pure _)
  | ofClass use index => exact finds_operands ((finds_u16 index).map _)
  | newArray type =>
    refine finds_operands ((finds_u8 _).bind_nil ?_)
    cases type <;> exact finds_pure _
  | multiNewArray index dimensions =>
    refine finds_operands ((finds_u16 index).bind ?_)
    exact (finds_u8 dimensions).bind_nil (finds_pure _)

end Operation

end FreshLocal
