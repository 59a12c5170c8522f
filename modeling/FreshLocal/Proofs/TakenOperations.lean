import FreshLocal.Proofs.CodeSpans
import FreshLocal.Proofs.TakenBytes

/-!
# The bytes that an operation is read from

Most instructions have more than one form: a slot may stand in the opcode, in one byte or
behind a `wide` in two, and a jump may give its distance in 16 bits or in 32. The width of an
instruction is a table of its own, beside the one of its bytes, and it is what the offsets of a
body are computed from.

**Argument.** A read is followed opcode by opcode. The operands of a branch determine the bytes
that they were read from, but for the form of a `goto` or a `jsr` and the padding of a switch;
those of any other instruction can be written in no more bytes than were read. As the reads of
a method cut its code into spans, what is true of one read is true of each span.

* `Branch.Spelling`: **the bytes that a branch may be read from**.
* `Operation.takes_read`: an operation is read from its opcode and its operands.
* `spelling_of_disassemble`: each span of some code spells its operation.
* `Operation.widths_agree`: **widths are numbers of bytes, and no form that is read is shorter
  than the one that is written**.
-/

namespace FreshLocal

open Reader

variable {length o t i : Nat} {code bs : Bytes} {x : Nat × Operation Nat}
  {ops : List (Nat × Operation Nat)}

/-! ## Branches -/

/-- The operands of a table behind its padding: the distances of its targets, and its keys by the
first and the last one. -/
def tableOperands (o d : Nat) (low high : Int32) (ts : List Nat) : Bytes :=
  Bytes.i32 (distanceTo o d) ++ Bytes.i32 low ++ Bytes.i32 high ++
    ts.flatMap fun t => Bytes.i32 (distanceTo o t)

/-- The operands of a switch with a key for each of its targets, behind its padding. -/
def caseOperands (o d : Nat) (count : Int32) (cs : List (Int32 × Nat)) : Bytes :=
  Bytes.i32 (distanceTo o d) ++ Bytes.i32 count ++
    cs.flatMap fun c => Bytes.i32 c.1 ++ Bytes.i32 (distanceTo o c.2)

theorem length_tableOperands (o d : Nat) (low high : Int32) (ts : List Nat) :
    (tableOperands o d low high ts).length = 4 * (3 + ts.length) := by
  simp only [tableOperands, List.length_append, Bytes.length_i32, List.length_flatMap,
    List.map_const', List.sum_replicate, smul_eq_mul]
  omega

theorem length_caseOperands (o d : Nat) (count : Int32) (cs : List (Int32 × Nat)) :
    (caseOperands o d count cs).length = 8 * (1 + cs.length) := by
  simp only [caseOperands, List.length_append, Bytes.length_i32, List.length_flatMap,
    List.map_const', List.sum_replicate, smul_eq_mul]
  omega

/-- **The bytes that a branch at an offset may be read from.** A `goto` and a `jsr` have two forms.
The padding of a switch may be any bytes, and its last key or the number of its cases is that of
its targets. -/
inductive Branch.Spelling (o : Nat) : Branch Nat → Bytes → Prop
  | exit {e : Exit} : Spelling o (.exit e) [(Opcode.exit e).byte]
  | jump {c : Condition} {t : Nat} (hnear : isNear ((t : Int) - o) = true) :
    Spelling o (.jump c t) ((Opcode.jump c).byte :: Bytes.i16 (distanceTo o t).toInt16)
  | goto {t : Nat} (hnear : isNear ((t : Int) - o) = true) :
    Spelling o (.goto t) (Opcode.goto.byte :: Bytes.i16 (distanceTo o t).toInt16)
  | jsr {t : Nat} (hnear : isNear ((t : Int) - o) = true) :
    Spelling o (.jsr t) (Opcode.jsr.byte :: Bytes.i16 (distanceTo o t).toInt16)
  | gotoW {t : Nat} : Spelling o (.goto t) (Opcode.gotoW.byte :: Bytes.i32 (distanceTo o t))
  | jsrW {t : Nat} : Spelling o (.jsr t) (Opcode.jsrW.byte :: Bytes.i32 (distanceTo o t))
  | tableSwitch {d : Nat} {low high : Int32} {ts : List Nat} {padding : Bytes}
    (hpadding : padding.length = operandPadding o) (hne : ts ≠ [])
    (hhigh : high.toInt = low.toInt + ts.length - 1) : Spelling o (.tableSwitch d low ts)
      (Opcode.tableSwitch.byte :: (padding ++ tableOperands o d low high ts))
  | lookupSwitch {d : Nat} {count : Int32} {cs : List (Int32 × Nat)} {padding : Bytes}
    (hpadding : padding.length = operandPadding o) (hcount : count.toInt = cs.length) :
    Spelling o (.lookupSwitch d cs)
      (Opcode.lookupSwitch.byte :: (padding ++ caseOperands o d count cs))

/-- Is the target of a `goto` or a `jsr` out of reach for a distance of 16 bits? -/
def Branch.isFar (o : Nat) : Branch Nat → Bool
  | goto t | jsr t => !isNear ((t : Int) - o)
  | _ => false

/-- **A branch takes no more bytes than it was read from**, if it is wide only where it has to. -/
theorem Branch.Spelling.width_le {b : Branch Nat} (h : b.Spelling o bs) :
    b.width o (b.isFar o) ≤ bs.length := by
  cases h with
  | exit => exact Nat.le_refl 1
  | jump hnear => simp [width, Bytes.length_i16]
  | goto hnear | jsr hnear => simp [width, isFar, hnear, Bytes.length_i16]
  | gotoW | jsrW =>
    have hforms : ∀ wide : Bool, (if wide = true then 5 else 3) ≤ 5 := by decide
    simpa [width, Bytes.length_i32] using hforms _
  | tableSwitch hpadding hne hhigh =>
    rw [List.length_cons, List.length_append, hpadding, length_tableOperands, width]
    omega
  | lookupSwitch hpadding hcount =>
    rw [List.length_cons, List.length_append, hpadding, length_caseOperands, width]
    omega

/-! ## Operands -/

theorem jumpTarget_eq_ok {d : Int} (h : jumpTarget length o d = .ok t) : (t : Int) = o + d := by
  simp only [jumpTarget] at h
  split at h
  · rename_i hinside
    cases h
    omega
  · cases h

/-- A distance that was read is that to the target. -/
theorem distanceTo_of_jumpTarget {d : Int32} (h : jumpTarget length o d.toInt = .ok t) :
    distanceTo o t = d := by
  have ht := jumpTarget_eq_ok h
  have hd : (t : Int) - o = d.toInt := by omega
  rw [distanceTo, hd, Int32.ofInt_toInt]

namespace Operation

/-- A distance of 16 bits leads to a target that is near. -/
theorem takes_readNear : (readNear length o).Takes fun t taken =>
    isNear ((t : Int) - o) = true ∧ taken = Bytes.i16 (distanceTo o t).toInt16 := by
  refine takes_i16.bind fun d taken htaken => takes_lift fun t ht => ?_
  have hlow := d.le_toInt
  have hhigh := d.toInt_lt
  have hd : (t : Int) - o = d.toInt := by
    have := jumpTarget_eq_ok ht
    omega
  refine ⟨?_, ?_⟩
  · rw [hd, isNear, Bool.and_eq_true, decide_eq_true_eq, decide_eq_true_eq]
    omega
  · have hnarrow : (Int32.ofInt d.toInt).toInt16 = d := by simp
    rw [htaken, List.append_nil, distanceTo, hd, hnarrow]

theorem takes_readFar : (readFar length o).Takes fun t taken =>
    taken = Bytes.i32 (distanceTo o t) := by
  refine takes_i32.bind fun d taken htaken => takes_lift fun t ht => ?_
  rw [htaken, List.append_nil, distanceTo_of_jumpTarget ht]

theorem takes_readCase : (readCase length o).Takes fun c taken =>
    taken = Bytes.i32 c.1 ++ Bytes.i32 (distanceTo o c.2) := by
  refine takes_i32.bind fun key _ hkey => takes_readFar.bind fun t _ ht => takes_pure ?_
  rw [hkey, ht, List.append_nil]

theorem takes_readTableSwitch : (readTableSwitch length o).Takes fun b taken =>
    b.Spelling o (Opcode.tableSwitch.byte :: taken) := by
  refine (takes_bytes _).bind fun padding _ hpadding => takes_readFar.bind fun d _ hd => ?_
  refine takes_i32.bind fun low _ hlow => takes_i32.bind fun high _ hhigh => ?_
  obtain ⟨rfl, hpadding⟩ := hpadding
  subst hd hlow hhigh
  dsimp only
  split
  · exact (takes_throw (P := fun _ _ => False)).bind fun _ _ h => h.elim
  · rename_i hcount
    refine (takes_times_write takes_readFar _).bind fun ts taken hts => takes_pure ?_
    obtain ⟨hlen, rfl⟩ := hts
    have hlast : high.toInt = low.toInt + ts.length - 1 := by omega
    have hne : ts ≠ [] := by
      intro hnil
      rw [hnil, List.length_nil] at hlen
      omega
    have hspelling : (Branch.tableSwitch d low ts).Spelling o _ := .tableSwitch hpadding hne hlast
    simpa only [tableOperands, List.append_assoc, List.append_nil] using hspelling

theorem takes_readLookupSwitch : (readLookupSwitch length o).Takes fun b taken =>
    b.Spelling o (Opcode.lookupSwitch.byte :: taken) := by
  have hread : (Int32.toInt <$> i32).Takes fun n taken =>
      ∃ count : Int32, count.toInt = n ∧ taken = Bytes.i32 count :=
    (takes_i32.mono fun count _ htaken => ⟨count, rfl, htaken⟩).map
  refine (takes_bytes _).bind fun padding _ hpadding => takes_readFar.bind fun d _ hd => ?_
  refine hread.bind fun n _ hn => ?_
  obtain ⟨rfl, hpadding⟩ := hpadding
  obtain ⟨count, hn, rfl⟩ := hn
  subst hd
  dsimp only
  split
  · exact (takes_throw (P := fun _ _ => False)).bind fun _ _ h => h.elim
  · rename_i hcount
    refine (takes_times_write takes_readCase _).bind fun cs taken hcs => takes_pure ?_
    obtain ⟨hlen, rfl⟩ := hcs
    have hcases : count.toInt = cs.length := by omega
    have hspelling : (Branch.lookupSwitch d cs).Spelling o _ := .lookupSwitch hpadding hcases
    simpa only [caseOperands, List.append_assoc, List.append_nil] using hspelling

end Operation

/-! ## Instructions that go on -/

theorem UInt8.toUInt16_le_max (b : UInt8) : b.toUInt16 ≤ 255 := by
  have hb := b.toNat_lt
  rw [UInt16.le_iff_toNat_le, UInt8.toNat_toUInt16]
  exact Nat.le_of_lt_succ hb

namespace Instruction

/-- No instruction takes more bytes than an increment behind a `wide`. -/
theorem width_le (i : Instruction) : i.width ≤ 6 := by
  unfold width
  repeat' split
  all_goals omega

/-- A load takes at most four bytes, and two if the slot can be written in one. -/
theorem width_load_le (kind : ValueKind) (slot : UInt16) :
    (load kind slot).width ≤ 4 ∧ (slot ≤ 255 → (load kind slot).width ≤ 2) := by
  simp only [width]
  constructor
  · split_ifs <;> omega
  · intro hle
    rw [if_pos hle]
    split_ifs <;> omega

theorem width_ret_le (slot : UInt16) :
    (ret slot).width ≤ 4 ∧ (slot ≤ 255 → (ret slot).width ≤ 2) := by
  simp only [width]
  constructor
  · split_ifs <;> omega
  · intro hle
    rw [if_pos hle]

/-- A slot that stands in the opcode is one of the first four. -/
theorem width_load_short (kind : ValueKind) (slot : Fin 4) :
    (load kind (UInt16.ofNat slot.val)).width = 1 := by
  have hshort : ∀ slot : Fin 4, UInt16.ofNat slot.val ≤ 3 := by decide
  exact if_pos (hshort slot)

/-- An increment whose operands were read from one byte each can be written so. -/
theorem isSmallIncrement_read (slot : UInt8) (amount : Int8) :
    isSmallIncrement slot.toUInt16 amount.toInt16 = true := by
  have hlow : -128 ≤ amount.toInt16 := by
    rw [Int16.le_iff_toInt_le, Int8.toInt_toInt16]
    exact amount.le_toInt
  have hhigh : amount.toInt16 ≤ 127 := by
    rw [Int16.le_iff_toInt_le, Int8.toInt_toInt16]
    exact Int.le_of_lt_add_one amount.toInt_lt
  simp [isSmallIncrement, UInt8.toUInt16_le_max, hlow, hhigh]

/-- A value that is read from `n` bytes, behind `k` others, for an instruction of that width. -/
theorem takes_width {α : Type} {r : Reader α} {g : α → Instruction} {k n : Nat}
    (h : r.Takes fun _ taken => taken.length = n) (hw : ∀ x, (g x).width ≤ k + n) :
    (g <$> r).Takes fun i taken => i.width ≤ k + taken.length := by
  refine (h.mono fun x taken htaken => ?_).map
  rw [htaken]
  exact hw x

end Instruction

/-! ## Operations -/

namespace Operation

open Instruction

/-- What is true of an operation at an offset and the bytes that it was read from: they spell the
branch, or an instruction that can be written in no more of them. -/
def TakenFrom (o : Nat) : Operation Nat → Bytes → Prop
  | plain i, bs => i.width ≤ bs.length
  | branch b, bs => b.Spelling o bs

theorem takes_u8_length : u8.Takes fun _ taken => taken.length = 1 :=
  takes_u8.mono fun b taken htaken => by rw [htaken]; rfl

theorem takes_i8_length : i8.Takes fun _ taken => taken.length = 1 :=
  takes_i8.mono fun x taken htaken => by rw [htaken]; rfl

theorem takes_u16_length : u16.Takes fun _ taken => taken.length = 2 :=
  takes_u16.mono fun x taken htaken => by rw [htaken, Bytes.length_u16]

theorem takes_i16_length : i16.Takes fun _ taken => taken.length = 2 :=
  takes_i16.mono fun x taken htaken => by rw [htaken, Bytes.length_i16]

/-- The instruction behind a `wide` has operands of two bytes. -/
theorem takes_readWide : readWide.Takes fun i taken => i.width ≤ 1 + taken.length := by
  have hbehind {b : UInt8} {taken : Bytes} {r : Reader Instruction} (hb : taken = [b])
      (hr : r.Takes fun i more => i.width ≤ 2 + more.length) :
      r.Takes fun i more => i.width ≤ 1 + (taken ++ more).length := by
    refine hr.mono fun i more hi => ?_
    rw [hb, List.length_append, List.length_singleton]
    omega
  refine takes_u8.bind fun b taken hb => hbehind hb ?_
  split
  -- a store is as wide as a load
  · rename_i kind _
    exact takes_width takes_u16_length fun slot => (width_load_le kind slot).1
  · rename_i kind _
    exact takes_width takes_u16_length fun slot => (width_load_le kind slot).1
  · exact takes_width takes_u16_length fun slot => (width_ret_le slot).1
  · have hslot : (iinc <$> Reader.u16).Takes fun _ taken => taken.length = 2 :=
      takes_u16_length.map
    refine hslot.bind fun f taken htaken => (takes_i16_length.mono fun amount more hmore => ?_).map
    rw [List.length_append, htaken, hmore]
    exact (f amount).width_le
  · exact takes_throw

/-- **The operands of an operation** are read from the bytes behind its opcode. -/
theorem takes_readOperands (op : Opcode) : (readOperands length o op).Takes fun operation taken =>
    operation.TakenFrom o (op.byte :: taken) := by
  have hplain {α : Type} {r : Reader α} {g : α → Instruction} {n : Nat}
      (h : r.Takes fun _ taken => taken.length = n) (hw : ∀ x, (g x).width ≤ 1 + n) :
      ((plain ∘ g) <$> r).Takes fun operation taken =>
        operation.TakenFrom o (op.byte :: taken) := by
    refine (h.mono fun x taken htaken => ?_).map
    have hx := hw x
    simp only [TakenFrom, Function.comp, List.length_cons, htaken]
    omega
  have hnear {f : Nat → Branch Nat} (hf : ∀ t : Nat, isNear ((t : Int) - o) = true →
      (f t).Spelling o (op.byte :: Bytes.i16 (distanceTo o t).toInt16)) :
      ((branch ∘ f) <$> readNear length o).Takes fun operation taken =>
        operation.TakenFrom o (op.byte :: taken) := by
    refine (takes_readNear.mono fun t taken ht => ?_).map
    obtain ⟨ht, rfl⟩ := ht
    exact hf t ht
  have hfar {f : Nat → Branch Nat}
      (hf : ∀ t : Nat, (f t).Spelling o (op.byte :: Bytes.i32 (distanceTo o t))) :
      ((branch ∘ f) <$> readFar length o).Takes fun operation taken =>
        operation.TakenFrom o (op.byte :: taken) := by
    refine (takes_readFar.mono fun t taken ht => ?_).map
    rw [ht]
    exact hf t
  cases op with
  | nullary op => exact takes_pure (Nat.le_refl 1)
  | bipush => exact hplain takes_i8_length fun _ => Nat.le_refl 2
  | sipush => exact hplain takes_i16_length fun _ => Nat.le_refl 3
  | ldc => exact hplain takes_u8_length fun x => Nat.le_of_eq (if_pos (UInt8.toUInt16_le_max x))
  | ldcW =>
    refine hplain takes_u16_length fun x => ?_
    simp only [Instruction.width]
    split_ifs <;> omega
  | ldc2W | field access | ofClass use => exact hplain takes_u16_length fun _ => Nat.le_refl 3
  | invokeVirtual | invokeSpecial | invokeStatic =>
    exact hplain takes_u16_length fun _ => Nat.le_refl 3
  | load kind | store kind =>
    exact hplain takes_u8_length fun x => (width_load_le kind _).2 (UInt8.toUInt16_le_max x)
  | ret => exact hplain takes_u8_length fun x => (width_ret_le _).2 (UInt8.toUInt16_le_max x)
  | loadShort kind slot | storeShort kind slot =>
    exact takes_pure (Nat.le_of_eq (width_load_short kind slot))
  | iinc =>
    refine takes_u8_length.bind fun slot _ hslot => takes_i8_length.bind fun amount _ hamount =>
      takes_pure ?_
    have hsmall : (Instruction.iinc slot.toUInt16 amount.toInt16).width = 3 :=
      if_pos (isSmallIncrement_read slot amount)
    simp [TakenFrom, hsmall, hslot, hamount]
  | jump c => exact hnear fun t ht => .jump ht
  | goto => exact hnear fun t ht => .goto ht
  | jsr => exact hnear fun t ht => .jsr ht
  | gotoW => exact hfar fun t => .gotoW
  | jsrW => exact hfar fun t => .jsrW
  | tableSwitch => exact takes_readTableSwitch.map
  | lookupSwitch => exact takes_readLookupSwitch.map
  | exit e => exact takes_pure .exit
  | invokeInterface =>
    refine takes_u16_length.bind fun index _ hindex => takes_u8_length.bind fun count _ hcount =>
      takes_u8_length.bind fun _ _ hzero => takes_pure ?_
    simp [TakenFrom, Instruction.width, hindex, hcount, hzero]
  | invokeDynamic =>
    refine takes_u16_length.bind fun index _ hindex => takes_u16_length.bind fun _ _ hzero =>
      takes_pure ?_
    simp [TakenFrom, Instruction.width, hindex, hzero]
  | newArray =>
    refine takes_u8_length.bind fun code _ hcode => ?_
    split
    · refine takes_pure ?_
      simp [TakenFrom, Instruction.width, hcode]
    · exact takes_throw
  | multiNewArray =>
    refine takes_u16_length.bind fun index _ hindex => takes_u8_length.bind fun _ _ hdimensions =>
      takes_pure ?_
    simp [TakenFrom, Instruction.width, hindex, hdimensions]
  | wide =>
    refine (takes_readWide.mono fun i taken hi => ?_).map
    rw [TakenFrom, List.length_cons]
    omega

/-- **An operation is read from its opcode and its operands**, at its own offset. -/
theorem takes_read : (read length).Takes fun x taken => x.2.TakenFrom x.1 taken := by
  refine takes_offset.bind fun start _ hstart => takes_u8.bind fun b _ hb => ?_
  rcases hop : Opcode.ofByte? b with _ | op
  · exact takes_throw
  · refine (takes_readOperands op).bind fun operation taken htaken => takes_pure ?_
    rw [hstart, hb, List.append_nil, List.nil_append, List.singleton_append,
      ← Opcode.byte_of_ofByte? hop]
    exact htaken

/-- Is the operation a `goto` or a `jsr` whose target is out of reach for a distance of 16 bits? -/
def isFar (o : Nat) : Operation Nat → Bool
  | plain _ => false
  | branch b => b.isFar o

theorem TakenFrom.width_le {operation : Operation Nat} (h : operation.TakenFrom o bs) :
    operation.width o (operation.isFar o) ≤ bs.length := by
  cases operation with
  | plain i => exact h
  | branch b => exact Branch.Spelling.width_le h

end Operation

/-! ## The code of a method -/

/-- **Each span** of some code is what its operation was read from. -/
theorem spelling_of_disassemble (h : disassemble code = .ok ops) (hx : ops[i]? = some x) :
    ∃ span rest, (spans code ops)[i]? = some span ∧ code.drop x.1 = span ++ rest ∧
      Operation.read code.length ⟨x.1, code.drop x.1⟩ =
        .ok (x, ⟨x.1 + span.length, rest⟩) ∧ x.2.TakenFrom x.1 span := by
  obtain ⟨hlt, hle, hspan, hread⟩ := (spanned_of_disassemble h).taken hx
  set stop := (ops[i + 1]?.map Prod.fst).getD code.length
  obtain ⟨taken, hahead, htaken⟩ := Operation.takes_read _ _ _ hread
  have hahead : code.drop x.1 = taken ++ code.drop stop := hahead
  have hlength : taken.length = stop - x.1 := by
    have hsum := congrArg List.length hahead
    rw [List.length_append, List.length_drop, List.length_drop] at hsum
    omega
  have hstop : x.1 + taken.length = stop := by omega
  refine ⟨taken, code.drop stop, ?_, hahead, ?_, htaken⟩
  · rw [hspan, hahead, ← hlength, List.take_left]
  · rw [hread, hstop]

/-- **Widths are numbers of bytes.** The width of an instruction, and that of a branch at any offset
in either form, is the number of the bytes that are written for it. And in any code that can be
read, each operation takes at its own offset no more bytes than those it was read from, if a `goto`
or a `jsr` is wide only where 16 bits cannot hold its distance. -/
theorem Operation.widths_agree :
    (∀ i : Instruction, i.encode.length = i.width) ∧
    (∀ (b : Branch Int32) (offset : Nat) (wide : Bool),
      (b.encode offset wide).length = b.width offset wide) ∧
    ∀ (code : Bytes) (ops : List (Nat × Operation Nat)), disassemble code = .ok ops →
      ∀ (i : Nat) (x : Nat × Operation Nat), ops[i]? = some x →
      ∃ span rest, (spans code ops)[i]? = some span ∧ code.drop x.1 = span ++ rest ∧
        Operation.read code.length ⟨x.1, code.drop x.1⟩ =
          .ok (x, ⟨x.1 + span.length, rest⟩) ∧ x.2.width x.1 (x.2.isFar x.1) ≤ span.length := by
  refine ⟨Instruction.length_encode, fun b offset wide => b.length_encode wide, ?_⟩
  intro code ops h i x hx
  obtain ⟨span, rest, hspan, hahead, hread, htaken⟩ := spelling_of_disassemble h hx
  exact ⟨span, rest, hspan, hahead, hread, htaken.width_le⟩

/-- An increment of small operands behind a `wide`, and a jump to itself with a distance of 32 bits:
three bytes are enough for either. -/
theorem Operation.widths_agree_wide :
    let code : Bytes := [0xc4, 0x84, 0x00, 0x01, 0x00, 0x01, 0xc8, 0x00, 0x00, 0x00, 0x00]
    let ops : List (Nat × Operation Nat) := [(0, .plain (.iinc 1 1)), (6, .branch (.goto 6))]
    disassemble code = .ok ops ∧ ops.map (fun x => x.2.width x.1 (x.2.isFar x.1)) = [3, 3] ∧
      (spans code ops).map List.length = [6, 5] ∧
      ∀ (i : Nat) (x : Nat × Operation Nat), ops[i]? = some x →
        ∃ span, (spans code ops)[i]? = some span ∧
          x.2.width x.1 (x.2.isFar x.1) ≤ span.length := by
  intro code ops
  have hread : disassemble code = .ok ops := by decide +kernel
  refine ⟨hread, by decide, by decide, fun i x hx => ?_⟩
  obtain ⟨span, -, hspan, -, -, hwidth⟩ := Operation.widths_agree.2.2 code ops hread i x hx
  exact ⟨span, hspan, hwidth⟩

end FreshLocal
