import FreshLocal.Instruction.Decoding
import FreshLocal.Proofs.BranchBytes
import FreshLocal.Proofs.OffsetVec

/-!
# The code of a method as instructions

The instructions of a method are found one behind the other, from the first byte
of the code to the last. So their offsets ascend, and each of them is smaller
than the length of the code.

* `Tiles`: some bytes are those of some operations in a row.
* `disassemble_of_tiles`: **operations in a row are read back**.
* `disassemble_eq_ok`: what was read is in order.
-/

namespace FreshLocal

open Reader

variable {length o : Nat} {bs code : Bytes} {ops : List (Nat × Operation Nat)}

/-- Can the operation be written, whatever the distances of its targets? -/
def Operation.Fits {π : Type} : Operation π → Prop
  | plain _ => True
  | branch b => b.Fits

/-- From the offset `o` on, in code of the given length, the bytes are those of the operations in
a row. -/
inductive Tiles (length : Nat) : Nat → Bytes → List (Nat × Operation Nat) → Prop
  | nil (o : Nat) : Tiles length o [] []
  | cons {o : Nat} {bs rest : Bytes} {op : Operation Nat} {ops : List (Nat × Operation Nat)} :
    (Operation.read length).Finds o bs (o, op) → bs ≠ [] →
      Tiles length (o + bs.length) rest ops → Tiles length o (bs ++ rest) ((o, op) :: ops)

theorem untilEndOnto_of_tiles (h : Tiles length o bs ops) {fuel : Nat} (hfuel : bs.length ≤ fuel)
    (done : List (Nat × Operation Nat)) :
    untilEndOnto (Operation.read length) fuel done ⟨o, bs⟩ =
      .ok (done.reverse ++ ops, ⟨o + bs.length, []⟩) := by
  induction h generalizing fuel done with
  | nil o => cases fuel <;> simp [untilEndOnto]
  | @cons o bs rest op ops hfinds hne _ ih =>
    have hpos : 0 < bs.length := List.length_pos_iff.2 hne
    rw [List.length_append] at hfuel
    cases fuel with
    | zero => omega
    | succ fuel =>
      have hahead : (bs ++ rest).isEmpty = false := by simp [hne]
      have hrest := @ih fuel (by omega) ((o, op) :: done)
      simp only [untilEndOnto, hahead, Bool.false_eq_true, if_false, hfinds rest, hrest]
      simp [Nat.add_assoc]

/-- Operations in a row stand in ascending order. -/
theorem Tiles.ascending (h : Tiles length o bs ops) :
    (ops.map Prod.fst).Pairwise (· < ·) ∧ ∀ q ∈ ops.map Prod.fst, o ≤ q := by
  induction h with
  | nil o => exact ⟨.nil, fun q hq => by cases hq⟩
  | @cons o bs rest op ops _ hne _ ih =>
    obtain ⟨hpairwise, hle⟩ := ih
    have hpos : 0 < bs.length := List.length_pos_iff.2 hne
    rw [List.map_cons]
    refine ⟨List.pairwise_cons.2 ⟨fun q hq => ?_, hpairwise⟩, List.forall_mem_cons.2
      ⟨Nat.le_refl o, fun q hq => ?_⟩⟩
    · have := hle q hq
      omega
    · have := hle q hq
      omega

/-! ## The starts of operations -/

/-- **The starts that are found** are those of the operations, if these ascend. -/
theorem hasStart_iff {α : Type} {xs : List (Nat × α)} (h : (xs.map Prod.fst).Pairwise (· < ·)) :
    hasStart (startOffsets xs) o = true ↔ o ∈ xs.map Prod.fst := by
  have hs : ((startOffsets xs).toList.map id).Pairwise (· < ·) := by simpa [startOffsets] using h
  rw [hasStart, Option.isSome_iff_exists, List.mem_iff_getElem?]
  constructor
  · rintro ⟨x, hx⟩
    obtain ⟨i, -, -, hi, rfl⟩ := (searchBy_eq_some hs _).1 hx
    exact ⟨i, by simpa [startOffsets] using hi⟩
  · rintro ⟨i, hi⟩
    have hi' : (startOffsets xs)[i]? = some o := by simpa [startOffsets] using hi
    obtain ⟨hsize, -⟩ := Array.getElem?_eq_some_iff.1 hi'
    exact ⟨o, (searchBy_eq_some hs _).2 ⟨i, Nat.zero_le i, hsize, hi', rfl⟩⟩

/-- **Operations in a row are read back**, if each target is the start of one of them. -/
theorem disassemble_of_tiles (h : Tiles code.length 0 code ops)
    (ht : ∀ x ∈ ops, ∀ t ∈ x.2.targets, t ∈ ops.map Prod.fst) : disassemble code = .ok ops := by
  have hread : untilEnd (Operation.read code.length) (.start code) =
      .ok (ops, ⟨0 + code.length, []⟩) := untilEndOnto_of_tiles h (Nat.le_refl _) []
  have hfind : (ops.flatMap (·.2.targets)).find? (!hasStart (startOffsets ops) ·) = none := by
    rw [List.find?_eq_none]
    intro t htmem
    obtain ⟨x, hx, htx⟩ := List.mem_flatMap.1 htmem
    simpa using (hasStart_iff h.ascending.1).2 (ht x hx t htx)
  simp only [disassemble, hread, bind, Except.bind, hfind]
  rfl

/-! ## What was read -/

theorem advances_lift {α : Type} {e : Except DecodeFault α} : (liftM e : Reader α).Advances := by
  intro c x c' h
  obtain ⟨-, rfl⟩ := lift_eq_ok.1 h
  exact ⟨[], rfl, rfl⟩

namespace Operation

theorem advances_readNear : (readNear length o).Advances :=
  advances_i16.bind fun _ => advances_lift

theorem advances_readFar : (readFar length o).Advances :=
  advances_i32.bind fun _ => advances_lift

theorem advances_readWide : readWide.Advances := by
  refine advances_u8.bind fun b => ?_
  split
  · exact advances_u16.map _
  · exact advances_u16.map _
  · exact advances_u16.map _
  · exact (advances_u16.map _).seq advances_i16
  · exact advances_throw

theorem advances_readTableSwitch : (readTableSwitch length o).Advances := by
  refine (advances_bytes _).bind fun _ => advances_readFar.bind fun d => ?_
  refine advances_i32.bind fun low => advances_i32.bind fun high => ?_
  dsimp only
  split
  · exact advances_throw.bind fun _ => (advances_times advances_readFar _).bind fun _ =>
      advances_pure _
  · exact (advances_times advances_readFar _).bind fun _ => advances_pure _

theorem advances_readLookupSwitch : (readLookupSwitch length o).Advances := by
  have hcase : (readCase length o).Advances :=
    advances_i32.bind fun _ => advances_readFar.bind fun _ => advances_pure _
  refine (advances_bytes _).bind fun _ => advances_readFar.bind fun d => ?_
  refine (advances_i32.map _).bind fun count => ?_
  dsimp only
  split
  · exact advances_throw.bind fun _ => (advances_times hcase _).bind fun _ => advances_pure _
  · exact (advances_times hcase _).bind fun _ => advances_pure _

theorem advances_readOperands (op : Opcode) : (readOperands length o op).Advances := by
  cases op with
  | nullary op => exact advances_pure _
  | bipush => exact advances_i8.map _
  | sipush => exact advances_i16.map _
  | ldc | load kind | store kind | ret => exact advances_u8.map _
  | ldcW | ldc2W | field access | ofClass use => exact advances_u16.map _
  | invokeVirtual | invokeSpecial | invokeStatic => exact advances_u16.map _
  | loadShort kind slot | storeShort kind slot | exit e => exact advances_pure _
  | iinc => exact advances_u8.bind fun _ => advances_i8.bind fun _ => advances_pure _
  | jump c | goto | jsr => exact advances_readNear.map _
  | gotoW | jsrW => exact advances_readFar.map _
  | tableSwitch => exact advances_readTableSwitch.map _
  | lookupSwitch => exact advances_readLookupSwitch.map _
  | invokeInterface =>
    exact advances_u16.bind fun _ => advances_u8.bind fun _ => advances_u8.bind fun _ =>
      advances_pure _
  | invokeDynamic => exact advances_u16.bind fun _ => advances_u16.bind fun _ => advances_pure _
  | newArray =>
    refine advances_u8.bind fun code => ?_
    split
    · exact advances_pure _
    · exact advances_throw
  | multiNewArray => exact advances_u16.bind fun _ => advances_u8.bind fun _ => advances_pure _
  | wide => exact advances_readWide.map _

/-- A table that was read can be written. -/
theorem ensures_tableSwitch : (readTableSwitch length o).Ensures Branch.Fits := by
  refine Ensures.bind fun _ => Ensures.bind fun d => Ensures.bind fun low =>
    Ensures.bind fun high => ?_
  dsimp only
  split
  · exact ensures_throw.bind_of (P := fun _ => False) fun _ h => h.elim
  · rename_i hcount
    have htrue : (readFar length o).Ensures fun _ => True := fun _ _ _ _ => trivial
    refine (ensures_times htrue _).bind_of fun ts hts => ensures_pure ?_
    have hhigh := high.toInt_lt
    simp only [Branch.Fits]
    omega

theorem ensures_readOperands (op : Opcode) : (readOperands length o op).Ensures Fits := by
  have hplain {α : Type} (f : α → Instruction) (r : Reader α) :
      ((plain ∘ f) <$> r : Reader (Operation Nat)).Ensures Fits :=
  Ensures.map fun _ _ _ _ => trivial
  have hbranch {α : Type} (f : α → Branch Nat) (r : Reader α) (hf : ∀ x, (f x).Fits) :
      ((branch ∘ f) <$> r : Reader (Operation Nat)).Ensures Fits := Ensures.map fun _ x _ _ => hf x
  cases op with
  | nullary op => exact ensures_pure trivial
  | bipush | sipush | ldc | load kind | store kind | ret => exact hplain _ _
  | ldcW | ldc2W | field access | ofClass use => exact hplain _ _
  | invokeVirtual | invokeSpecial | invokeStatic => exact hplain _ _
  | loadShort kind slot | storeShort kind slot | exit e => exact ensures_pure trivial
  | iinc => exact Ensures.bind fun _ => Ensures.bind fun _ => ensures_pure trivial
  | jump c | goto | jsr => exact hbranch _ _ fun _ => trivial
  | gotoW | jsrW => exact hbranch _ _ fun _ => trivial
  | tableSwitch => exact Ensures.map ensures_tableSwitch
  | lookupSwitch =>
    refine Ensures.map ?_
    refine Ensures.bind fun _ => Ensures.bind fun d => Ensures.bind fun count => ?_
    dsimp only
    split
    · exact Ensures.bind fun _ => Ensures.bind fun _ => ensures_pure trivial
    · exact Ensures.bind fun _ => ensures_pure trivial
  | invokeInterface =>
    exact Ensures.bind fun _ => Ensures.bind fun _ => Ensures.bind fun _ => ensures_pure trivial
  | invokeDynamic => exact Ensures.bind fun _ => Ensures.bind fun _ => ensures_pure trivial
  | newArray =>
    refine Ensures.bind fun code => ?_
    split
    · exact ensures_pure trivial
    · exact ensures_throw
  | multiNewArray => exact Ensures.bind fun _ => Ensures.bind fun _ => ensures_pure trivial
  | wide => exact Ensures.map fun _ _ _ _ => trivial

/-- **An operation that was read** stands where the cursor was, and takes at least a byte. -/
theorem read_eq_ok {c c' : Cursor} {x : Nat × Operation Nat} (h : read length c = .ok (x, c')) :
    x.1 = c.offset ∧ x.2.Fits ∧
      ∃ taken, taken ≠ [] ∧ c.ahead = taken ++ c'.ahead ∧ c'.offset = c.offset + taken.length := by
  obtain ⟨_, _, hoffset, h⟩ := bind_eq_ok.1 h
  cases hoffset
  obtain ⟨b, c₁, hb, h⟩ := bind_eq_ok.1 h
  rcases hop : Opcode.ofByte? b with _ | op
  · rw [hop] at h; cases h
  · rw [hop] at h
    obtain ⟨operation, c₂, hoperation, h⟩ := bind_eq_ok.1 h
    cases h
    obtain ⟨rest, hrest, hrest'⟩ := advances_readOperands op c₁ operation c' hoperation
    obtain ⟨hahead, hoffset⟩ := u8_eq_ok hb
    refine ⟨rfl, ensures_readOperands op _ _ _ hoperation, b :: rest, by simp, ?_, ?_⟩
    · rw [hahead, hrest]; rfl
    · rw [hrest', hoffset, List.length_cons]; omega

end Operation

/-- What was read of the code ahead of a cursor. -/
theorem untilEndOnto_eq_ok {fuel : Nat} {done : List (Nat × Operation Nat)} {c c' : Cursor}
    (h : untilEndOnto (Operation.read length) fuel done c = .ok (ops, c')) :
    ∃ more, ops = done.reverse ++ more ∧ (more.map Prod.fst).Pairwise (· < ·) ∧
      ∀ x ∈ more, c.offset ≤ x.1 ∧ x.1 < c.offset + c.ahead.length ∧ x.2.Fits := by
  induction fuel generalizing done c with
  | zero => cases h; exact ⟨[], by simp⟩
  | succ fuel ih =>
    simp only [untilEndOnto] at h
    split at h
    · cases h; exact ⟨[], by simp⟩
    · split at h
      · cases h
      · rename_i x c₁ hx
        obtain ⟨hoffset, hfits, taken, hne, hahead, hoffset'⟩ := Operation.read_eq_ok hx
        obtain ⟨more, rfl, hsorted, hmore⟩ := ih h
        have hpos : 0 < taken.length := List.length_pos_iff.2 hne
        have hlen : c.ahead.length = taken.length + c₁.ahead.length := by
          rw [hahead, List.length_append]
        refine ⟨x :: more, by simp, ?_, ?_⟩
        · rw [List.map_cons, List.pairwise_cons]
          refine ⟨fun n hn => ?_, hsorted⟩
          obtain ⟨y, hy, rfl⟩ := List.mem_map.1 hn
          have := (hmore y hy).1
          omega
        · rw [List.forall_mem_cons]
          refine ⟨⟨by omega, by omega, hfits⟩, fun y hy => ?_⟩
          obtain ⟨h1, h2, h3⟩ := hmore y hy
          exact ⟨by omega, by omega, h3⟩

/-- **The instructions of code that was read** stand in ascending order inside the code, and each
target is the start of one of them. -/
theorem disassemble_eq_ok (h : disassemble code = .ok ops) :
    (ops.map Prod.fst).Pairwise (· < ·) ∧ (∀ x ∈ ops, x.1 < code.length ∧ x.2.Fits) ∧
      ∀ x ∈ ops, ∀ t ∈ x.2.targets, t ∈ ops.map Prod.fst := by
  obtain ⟨⟨instructions, c⟩, hread, h⟩ := Except.bind_eq_ok.1 h
  dsimp only at h
  split at h
  · cases h
  · rename_i hfind
    cases h
    obtain ⟨more, rfl, hsorted, hmore⟩ := untilEndOnto_eq_ok hread
    refine ⟨hsorted, fun x hx => ?_, fun x hx t ht => ?_⟩
    · obtain ⟨-, hlt, hfits⟩ := hmore x hx
      exact ⟨by simpa [Cursor.start] using hlt, hfits⟩
    · rw [List.find?_eq_none] at hfind
      have hstart := hfind t (List.mem_flatMap.2 ⟨x, hx, ht⟩)
      rw [Bool.not_eq_true, Bool.not_eq_false'] at hstart
      exact (hasStart_iff hsorted).1 hstart

end FreshLocal
