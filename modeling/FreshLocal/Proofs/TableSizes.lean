import FreshLocal.Proofs.BodyReading

/-!
# Tables are not longer than what they are read from

The entries of a table take a number of bytes that does not depend on the
positions in them. A reader spends that many bytes on them at least, so that all
tables of a body together are shorter than the attribute that holds the body.

* `Reader.Spends`: a reader takes at least as many bytes as its value has.
* `AnnotatedType.size`: how many bytes an annotation takes.
* `Body.tableSize`: how many bytes the lines, variables and annotations of a body take.
* `Body.tableSize_le`: **the tables of a body** are shorter than what it was read from.
-/

namespace FreshLocal

open Reader

variable {α β : Type}

namespace Reader

variable {r : Reader α} {f : α → Reader β} {size : α → Nat} {bs : Bytes} {x : α} {what : String}

/-- The reader takes at least as many bytes as its value has. -/
def Spends (r : Reader α) (size : α → Nat) : Prop :=
  ∀ c x c', r c = .ok (x, c') → size x + c'.ahead.length ≤ c.ahead.length

/-- Some bytes are spent on the first value, and those that are left on the second. -/
theorem Spends.bind {size' : β → Nat} (h : r.Spends size)
    (h' : ∀ x, (f x).Spends fun y => size' y - size x) : (r >>= f).Spends size' := by
  intro c y c'' hy
  obtain ⟨x, c', hx, hy⟩ := bind_eq_ok.1 hy
  have hfirst := h c x c' hx
  have hsecond : size' y - size x + c''.ahead.length ≤ c'.ahead.length := h' x c' y c'' hy
  omega

theorem Spends.map (size' : β → Nat) (g : α → β) (h : r.Spends fun x => size' (g x)) :
    (g <$> r).Spends size' := by
  intro c y c' hy
  obtain ⟨x, hx, rfl⟩ := map_eq_ok.1 hy
  exact h c x c' hx

/-- A reader spends no less than it is said to. -/
theorem Spends.mono {size' : α → Nat} (h : r.Spends size) (hle : ∀ x, size' x ≤ size x) :
    r.Spends size' := by
  intro c x c' hx
  exact (Nat.add_le_add_right (hle x) _).trans (h c x c' hx)

theorem spends_pure (h : size x = 0) : (pure x : Reader α).Spends size := by
  rintro c _ _ ⟨⟩
  rw [h, Nat.zero_add]

theorem spends_throw {fault : DecodeFault} : (throw fault : Reader α).Spends size := by
  rintro c _ _ ⟨⟩

theorem spends_u8 : u8.Spends fun _ => 1 := by
  intro c b c' h
  obtain ⟨ha, -⟩ := u8_eq_ok h
  rw [ha, List.length_cons, Nat.add_comm]

theorem spends_numberFrom (high width : Nat) : (numberFrom high width).Spends fun _ => width := by
  induction width generalizing high with
  | zero => exact spends_pure rfl
  | succ width ih => exact spends_u8.bind fun b => ih _

theorem spends_u16 : u16.Spends fun _ => 2 := (spends_numberFrom 0 2).map (fun _ => 2) UInt16.ofNat

theorem spends_u32 : u32.Spends fun _ => 4 := (spends_numberFrom 0 4).map (fun _ => 4) UInt32.ofNat

theorem spends_bytes (n : Nat) : (bytes n).Spends List.length := by
  intro c bs c' h
  simp only [bytes, List.splitAt_eq] at h
  split at h
  · cases h
    rw [← List.length_append, List.take_append_drop]
  · cases h

theorem spends_timesOnto (h : r.Spends size) (n : Nat) (done : List α) :
    (timesOnto r n done).Spends fun xs => (xs.map size).sum - (done.map size).sum := by
  induction n generalizing done with
  | zero => exact spends_pure (by simp [List.map_reverse, List.sum_reverse])
  | succ n ih =>
    rw [timesOnto_succ]
    refine h.bind fun x => (ih (x :: done)).mono fun xs => ?_
    rw [List.map_cons, List.sum_cons]
    omega

theorem spends_times (h : r.Spends size) (n : Nat) :
    (times n r).Spends fun xs => (xs.map size).sum :=
  spends_timesOnto h n []

theorem spends_counted (h : r.Spends size) :
    (counted r).Spends fun xs => 2 + (xs.map size).sum :=
  spends_u16.bind fun n => (spends_times h n.toNat).mono fun xs => by omega

theorem Spends.of_whole (hr : r.Spends size) (h : whole what r bs = .ok x) :
    size x ≤ bs.length := by
  obtain ⟨c, hc⟩ := whole_eq_ok h
  have hspent := hr _ x c hc
  exact (Nat.le_add_right _ _).trans hspent

end Reader

/-! ## Entries -/

theorem LineNumber.spends_read : read.Spends fun _ => 4 :=
  spends_u16.bind fun _ => spends_u16.bind fun _ => spends_pure rfl

theorem VariableEntry.spends_read : read.Spends fun _ => 10 :=
  spends_u16.bind fun _ => spends_u16.bind fun _ => spends_u16.bind fun _ =>
    spends_u16.bind fun _ => spends_u16.bind fun _ => spends_pure rfl

theorem LineNumber.length_write (l : LineNumber) : l.write.length = 4 := by
  rw [write, List.length_append, Bytes.length_u16, Bytes.length_u16]

theorem VariableEntry.length_write (v : VariableEntry) : v.write.length = 10 := by
  simp only [write, List.length_append, Bytes.length_u16]

/-- How many bytes a list takes behind its length. -/
theorem Bytes.length_counted (write : α → Bytes) (xs : List α) :
    (counted write xs).length = 2 + (xs.map fun x => (write x).length).sum := by
  rw [counted, List.length_append, length_u16, List.length_flatMap]

/-- How many bytes the target of an annotation takes. -/
def AnnotationTarget.size {π : Type} : AnnotationTarget π → Nat
  | localVariable _ ranges => 3 + 6 * ranges.length
  | handler _ | instruction _ _ => 3
  | typeArgument _ _ _ => 4

/-- How many bytes an annotation takes. -/
def AnnotatedType.size {π : Type} (a : AnnotatedType π) : Nat :=
  a.target.size + 1 + a.path.length + a.body.length

theorem AnnotationTarget.spends_read : read.Spends size := by
  have hrange : LocalRange.read.Spends fun _ => 6 := by
    refine spends_u16.bind fun _ => spends_u16.bind fun _ => spends_u16.bind fun _ => ?_
    dsimp only
    split
    · exact spends_pure rfl
    · exact spends_throw
  refine spends_u8.bind fun kind => ?_
  split
  · refine Spends.map _ _ ((spends_counted hrange).mono fun ranges => ?_)
    rw [size, List.map_const', List.sum_replicate, smul_eq_mul]
    omega
  split
  · exact Spends.map _ _ spends_u16
  split
  · exact Spends.map _ _ spends_u16
  split
  · intro c t c' h
    obtain ⟨g, c₁, hg, h⟩ := bind_eq_ok.1 h
    obtain ⟨at_, hat, rfl⟩ := map_eq_ok.1 hg
    obtain ⟨index, hindex, rfl⟩ := map_eq_ok.1 h
    have hfirst : 2 + c₁.ahead.length ≤ c.ahead.length := spends_u16 _ _ _ hat
    have hsecond : 1 + c'.ahead.length ≤ c₁.ahead.length := spends_u8 _ _ _ hindex
    simp only [size]
    omega
  · exact spends_throw

namespace AnnotatedType

theorem spends_readBody : readBody.Spends List.length := by
  intro c body c' h
  unfold readBody at h
  split at h
  · cases h
  · rename_i c'' hskip
    cases h
    obtain ⟨taken, ha, ho, -⟩ := replays_skipBody (replays_skipValue c.ahead) c () c' hskip
    rw [ho, Nat.add_sub_cancel_left, ha, List.take_left, List.length_append]

theorem spends_read (visible : Bool) : (read visible).Spends size := by
  refine AnnotationTarget.spends_read.bind fun target => spends_u8.bind fun steps => ?_
  refine (spends_bytes _).bind fun path => spends_readBody.bind fun body => spends_pure ?_
  simp only [size]
  omega

theorem length_write (a : AnnotatedType UInt16) : a.write.length = a.size := by
  have htarget : a.target.write.length = a.target.size := by
    cases a.target with
    | localVariable isResource ranges =>
      have hrange : ∀ r : LocalRange UInt16, r.write.length = 6 := fun r => by
        simp only [LocalRange.write, List.length_append, Bytes.length_u16]
      simp only [AnnotationTarget.write, List.length_append, Bytes.length_counted, hrange,
        List.map_const', List.sum_replicate, smul_eq_mul, AnnotationTarget.size, Bytes.u8,
        List.length_singleton]
      omega
    | handler index | instruction kind at_ | typeArgument kind at_ index =>
      simp only [AnnotationTarget.write, List.length_append, Bytes.length_u16, Bytes.u8,
        List.length_singleton, AnnotationTarget.size]
  rw [write, List.length_append, List.length_append, List.length_append, htarget, size]
  rfl

/-- An annotation takes as many bytes wherever its positions are. -/
theorem size_map {π π' : Type} (f : π → π') (a : AnnotatedType π) : (a.map f).size = a.size := by
  obtain ⟨visible, target, path, body⟩ := a
  cases target <;> simp [map, AnnotationTarget.map, size, AnnotationTarget.size]

end AnnotatedType

/-! ## Attributes -/

theorem Attribute.spends_read : read.Spends fun a => 6 + a.body.length := by
  refine spends_u16.bind fun name => spends_u32.bind fun length => ?_
  refine (spends_bytes _).bind fun body => spends_pure ?_
  dsimp only
  omega

/-- The attributes of a body are shorter than the attribute that holds the body. -/
theorem CodeAttribute.spends_reader :
    reader.Spends fun c => 12 + (c.attributes.map fun a => 6 + a.body.length).sum := by
  have hhandler : Handler.read.Spends fun _ => 8 :=
    spends_u16.bind fun _ => spends_u16.bind fun _ => spends_u16.bind fun _ =>
      spends_u16.bind fun _ => spends_pure rfl
  refine spends_u16.bind fun _ => spends_u16.bind fun _ => spends_u32.bind fun length => ?_
  refine (spends_bytes _).bind fun code => (spends_counted hhandler).bind fun handlers => ?_
  refine (spends_counted Attribute.spends_read).bind fun attributes => spends_pure ?_
  dsimp only
  omega

/-- How many bytes the lines, variables and annotations of a part take. -/
def CodePart.tableSize : CodePart → Nat
  | lines ls => 4 * ls.length
  | locals _ vs => 10 * vs.length
  | annotations found => (found.map AnnotatedType.size).sum
  | _ => 0

/-- How many bytes the lines, variables and annotations of a body take. -/
def Body.tableSize (b : Body) : Nat :=
  4 * b.lines.length + 10 * b.locals.length + 10 * b.genericLocals.length +
    (b.annotations.map AnnotatedType.size).sum

namespace CodePart

variable {pool : ConstantPool} {a : Attribute} {part : CodePart}

theorem tableSize_le (h : read pool a = .ok part) : part.tableSize ≤ a.body.length := by
  obtain ⟨name, -, hof⟩ := read_cases h
  have table : ∀ {α : Type} {r : Reader α} {size : α → Nat} {what : String} {xs : List α},
      r.Spends size → (counted r).whole what a.body = .ok xs →
        (xs.map size).sum ≤ a.body.length := by
    intro α r size what xs hr hread
    exact (Nat.le_add_left _ _).trans ((spends_counted hr).of_whole hread)
  cases hof with
  | lines htable =>
    have hle := table LineNumber.spends_read htable
    rw [List.map_const', List.sum_replicate, smul_eq_mul, Nat.mul_comm] at hle
    exact hle
  | locals htable =>
    have hle := table VariableEntry.spends_read htable
    rw [List.map_const', List.sum_replicate, smul_eq_mul, Nat.mul_comm] at hle
    exact hle
  | annotations htable => exact table (AnnotatedType.spends_read _) htable
  | frames | other => exact Nat.zero_le _

end CodePart

namespace Body

variable {pool : ConstantPool} {stored : Bytes} {b : Body}

/-- The tables of a body list what its parts list. -/
theorem tableSize_eq (parts : List CodePart) :
    4 * (parts.flatMap CodePart.lines?).length +
      10 * (parts.flatMap (CodePart.locals? false)).length +
      10 * (parts.flatMap (CodePart.locals? true)).length +
      ((parts.flatMap CodePart.annotations?).map AnnotatedType.size).sum =
        (parts.map CodePart.tableSize).sum := by
  induction parts with
  | nil => rfl
  | cons part parts ih =>
    simp only [List.flatMap_cons, List.length_append, List.map_append, List.sum_append,
      List.map_cons, List.sum_cons, ← ih]
    cases part with
    | locals isGeneric vs =>
      cases isGeneric <;>
        simp [CodePart.lines?, CodePart.locals?, CodePart.annotations?, CodePart.tableSize] <;>
        omega
    | _ =>
      simp [CodePart.lines?, CodePart.locals?, CodePart.annotations?, CodePart.tableSize] <;> omega

/-- **The tables of a body** are shorter than what it was read from. -/
theorem tableSize_le (h : read pool stored = .ok b) : b.tableSize + 12 ≤ stored.length := by
  obtain ⟨c, hc, hb⟩ := ofAttribute_of_read h
  obtain ⟨operations, -, hb⟩ := Except.bind_eq_ok.1 hb
  obtain ⟨parts, hparts, hb⟩ := Except.bind_eq_ok.1 hb
  cases hb
  have hspent := CodeAttribute.spends_reader.of_whole hc
  have hattributes : (parts.map CodePart.tableSize).sum ≤
      (c.attributes.map fun a => 6 + a.body.length).sum := by
    refine List.Forall₂.sum_le_sum ?_
    rw [List.forall₂_map_left_iff, List.forall₂_map_right_iff]
    refine (mapM_eq_ok.1 hparts).flip.imp fun part a hpart => ?_
    exact (CodePart.tableSize_le hpart).trans (Nat.le_add_left _ _)
  rw [tableSize, tableSize_eq]
  omega

end Body

end FreshLocal
