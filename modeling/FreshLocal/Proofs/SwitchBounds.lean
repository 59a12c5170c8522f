import FreshLocal.Proofs.TakenOperations

/-!
# The last key of a table

A table is held by its first key and its targets, and its last key is computed again when it is
written: the number of targets is added to the first key, and then one is taken off. Its keys may
be any numbers of 32 bits, so the sum in the middle can be one more than the largest of them.

**Argument.** Numbers of 32 bits that go round come back to where they left, so the last key that is
written is always the one that was read. Whether a number on the way leaves the range is another
question. The number of targets does not, as each of them takes four bytes of the code (of less
than 2 ^ 33 bytes); the last step goes back to a key that was read; and the sum does exactly if the
last key is the largest number there is. The cases of a switch that lists its keys are only counted.

* `Branch.Exact`: **each number on the way is in the range**.
* `Branch.exact_tableSwitch`: exactly if the last key is not the largest number.
* `switches_exact`: **the switches of any code that can be read**, with their bytes.
-/

namespace FreshLocal

variable {π : Type} {o d : Nat} {low high : Int32} {ts : List Nat}

/-- **Each number on the way** to the last key of a table, and the number of the cases of a switch,
is in the range of 32 bits: no step of the computation goes round. -/
def Branch.Exact : Branch π → Prop
  | tableSwitch _ low targets =>
    (Int32.ofNat targets.length).toInt = targets.length ∧
    (low + Int32.ofNat targets.length).toInt = low.toInt + targets.length ∧
    (low + Int32.ofNat targets.length - 1).toInt = (low + Int32.ofNat targets.length).toInt - 1
  | lookupSwitch _ cases => (Int32.ofNat cases.length).toInt = cases.length
  | _ => True

/-- A number is a number of 32 bits exactly if it is below the bound. -/
theorem Int32.toInt_ofNat_eq_iff {n : Nat} : (Int32.ofNat n).toInt = n ↔ n < 2 ^ 31 := by
  constructor
  · intro h
    have hlt := (Int32.ofNat n).toInt_lt
    omega
  · exact Int32.toInt_ofNat_of_lt

/-- **The last key that is written** is the one that was read, even if a number goes round. -/
theorem lastKey_eq (hhigh : high.toInt = low.toInt + ts.length - 1) :
    low + Int32.ofNat ts.length - 1 = high :=
  calc low + Int32.ofNat ts.length - 1
      = Int32.ofInt low.toInt + Int32.ofInt ts.length - Int32.ofInt 1 := by
        rw [Int32.ofInt_toInt, Int32.ofInt_eq_ofNat]
        rfl
    _ = Int32.ofInt (low.toInt + ts.length - 1) := by rw [Int32.ofInt_sub, Int32.ofInt_add]
    _ = high := by rw [← hhigh, Int32.ofInt_toInt]

/-- **No number on the way to the last key goes round** exactly if this key is not the largest
number of 32 bits, and if such a number can count the targets. -/
theorem Branch.exact_tableSwitch (hne : ts ≠ [])
    (hhigh : high.toInt = low.toInt + ts.length - 1) :
    (Branch.tableSwitch d low ts).Exact ↔ ts.length < 2 ^ 31 ∧ high ≠ Int32.maxValue := by
  have hpos : 0 < ts.length := List.length_pos_iff.2 hne
  have hlow := low.le_toInt
  have hhigh' := high.toInt_lt
  have hmax : high = Int32.maxValue ↔ high.toInt = 2 ^ 31 - 1 := by
    rw [← Int32.toInt_inj]
    rfl
  rw [Branch.Exact, Int32.toInt_ofNat_eq_iff, lastKey_eq hhigh, ne_eq, hmax]
  refine and_congr_right fun hcount => ?_
  have hsum : (low + Int32.ofNat ts.length).toInt = (low.toInt + ts.length).bmod (2 ^ 32) := by
    rw [Int32.toInt_add, Int32.toInt_ofNat_of_lt hcount]
  constructor
  · rintro ⟨hexact, -⟩ hlargest
    have hlt := (low + Int32.ofNat ts.length).toInt_lt
    omega
  · intro hless
    have hexact : (low + Int32.ofNat ts.length).toInt = low.toInt + ts.length := by
      rw [hsum]
      exact Int.bmod_eq_of_le (by omega) (by omega)
    exact ⟨hexact, by rw [hexact, hhigh]⟩

/-! ## The switches of a method -/

theorem Branch.encode_table (wide : Bool) (hhigh : high.toInt = low.toInt + ts.length - 1) :
    ((Branch.tableSwitch d low ts).map (distanceTo o)).encode o wide =
      Opcode.tableSwitch.byte ::
        (List.replicate (operandPadding o) 0 ++ tableOperands o d low high ts) := by
  simp only [map, encode, tableOperands, List.length_map, List.flatMap_map, lastKey_eq hhigh,
    List.append_assoc]

theorem Branch.encode_cases (wide : Bool) (cs : List (Int32 × Nat)) :
    ((Branch.lookupSwitch d cs).map (distanceTo o)).encode o wide =
      Opcode.lookupSwitch.byte :: (List.replicate (operandPadding o) 0 ++
        caseOperands o d (Int32.ofNat cs.length) cs) := by
  simp only [map, encode, caseOperands, List.length_map, List.flatMap_map, List.append_assoc]

/-- **The switches of any code that can be read.** The bytes of a table end with its operands, and
written again at its offset it ends with the same ones, its last key included. The numbers on the
way to this key are in the range exactly if it is not the largest number of 32 bits (and the targets
can be counted with such numbers, as in any code of less than 2 ^ 33 bytes). A switch that lists its
keys is written with the operands that it was read from, and its number of cases is in the range. -/
theorem switches_exact {code : Bytes} {ops : List (Nat × Operation Nat)}
    (h : disassemble code = .ok ops) {i : Nat} {x : Nat × Operation Nat}
    (hx : ops[i]? = some x) :
    (∀ d low ts, x.2 = .branch (.tableSwitch d low ts) → ∃ padding high,
      padding.length = operandPadding x.1 ∧
      (spans code ops)[i]? =
        some (Opcode.tableSwitch.byte :: (padding ++ tableOperands x.1 d low high ts)) ∧
      (∀ wide, ((Branch.tableSwitch d low ts).map (distanceTo x.1)).encode x.1 wide =
        Opcode.tableSwitch.byte ::
          (List.replicate (operandPadding x.1) 0 ++ tableOperands x.1 d low high ts)) ∧
      high.toInt = low.toInt + ts.length - 1 ∧ low + Int32.ofNat ts.length - 1 = high ∧
      4 * ts.length < code.length ∧
      ((Branch.tableSwitch d low ts).Exact ↔ ts.length < 2 ^ 31 ∧ high ≠ Int32.maxValue)) ∧
    ∀ d cs, x.2 = .branch (.lookupSwitch d cs) → ∃ padding,
      padding.length = operandPadding x.1 ∧
      (spans code ops)[i]? = some (Opcode.lookupSwitch.byte ::
        (padding ++ caseOperands x.1 d (Int32.ofNat cs.length) cs)) ∧
      (∀ wide, ((Branch.lookupSwitch d cs).map (distanceTo x.1)).encode x.1 wide =
        Opcode.lookupSwitch.byte :: (List.replicate (operandPadding x.1) 0 ++
          caseOperands x.1 d (Int32.ofNat cs.length) cs)) ∧
      (Branch.lookupSwitch d cs).Exact := by
  obtain ⟨span, rest, hspan, hahead, -, htaken⟩ := spelling_of_disassemble h hx
  have hlength : span.length ≤ code.length := by
    have hsum := congrArg List.length hahead
    rw [List.length_append, List.length_drop] at hsum
    omega
  constructor
  · intro d low ts hbranch
    rw [hbranch] at htaken
    cases htaken with
    | @tableSwitch _ _ high _ padding hpadding hne hhigh =>
      rw [List.length_cons, List.length_append, length_tableOperands] at hlength
      exact ⟨padding, high, hpadding, hspan, fun wide => Branch.encode_table wide hhigh, hhigh,
        lastKey_eq hhigh, by omega, Branch.exact_tableSwitch hne hhigh⟩
  · intro d cs hbranch
    rw [hbranch] at htaken
    cases htaken with
    | @lookupSwitch _ count _ padding hpadding hcount =>
      have hread : Int32.ofNat cs.length = count := by
        rw [← Int32.ofInt_eq_ofNat, ← hcount, Int32.ofInt_toInt]
      rw [← hread] at hcount hspan
      exact ⟨padding, hpadding, hspan, fun wide => Branch.encode_cases wide cs, hcount⟩

/-- A table with one key, the largest number there is. The sum on the way to the last key goes round
to the smallest number, and the bytes are still those that were read. -/
theorem switches_exact_largest :
    let code : Bytes := [0x00, 0x00, 0x00, 0xaa, 0x00, 0x00, 0x00, 0x00, 0x7f, 0xff, 0xff, 0xff,
      0x7f, 0xff, 0xff, 0xff, 0x00, 0x00, 0x00, 0x00, 0xb1]
    let nop : Operation Nat := .plain (.nullary ⟨0x00, by decide⟩)
    let table : Branch Nat := .tableSwitch 3 2147483647 [3]
    let ops : List (Nat × Operation Nat) :=
      [(0, nop), (1, nop), (2, nop), (3, .branch table), (20, .branch (.exit .returnVoid))]
    disassemble code = .ok ops ∧ ¬ table.Exact ∧
      (2147483647 : Int32) + Int32.ofNat 1 = Int32.minValue ∧
      (spans code ops)[3]? = some ((table.map (distanceTo 3)).encode 3 false) := by
  intro code nop table ops
  have hread : disassemble code = .ok ops := by decide +kernel
  obtain ⟨padding, high, hpadding, hspan, hencode, -, hlast, -, hexact⟩ :=
    (switches_exact hread (i := 3) rfl).1 3 2147483647 [3] rfl
  have hlargest : high = Int32.maxValue := by rw [← hlast]; rfl
  have hzero : operandPadding 3 = 0 := by decide
  have hnone : padding = [] := List.length_eq_zero_iff.1 (hpadding.trans hzero)
  refine ⟨hread, fun h => (hexact.1 h).2 hlargest, by decide, hspan.trans ?_⟩
  rw [hencode false, hzero, hnone, List.replicate_zero]

end FreshLocal
