import FreshLocal.ClassFile
import FreshLocal.Proofs.Reading

/-!
# No class file is the front of another

A class file does not say how long it is. Its end is where its last attribute ends, which is known
only after the lengths and the counts of everything in front of it were read.

**Argument.** A reader goes forward and looks only at the bytes that it takes. So with more bytes
behind, it reads the same value and has these bytes left in addition, or finds the same fault in
what it has read; the one thing that more bytes can change is that there were too few of them.
Steps in a row behave like each of them. A strict front of a class file is read as far as it goes:
it cannot be a class file, since the rest would be left behind it in the whole, and it cannot have
a fault of its own, since the whole would have it, too.

* `Incremental`: **more bytes behind do not change what is read**.
* `Incremental.andThen`, `Incremental.mapError`: steps in a row, and other kinds of faults.
* `Incremental.short_of_front`: **a strict front of bytes that are used up is too short**.
* `ConstantPool.incremental_read`, `ClassFile.incremental_readFront`: the structures of a class
  file.
* `ClassFile.read_prefixFree`: **a class file cut anywhere is truncated, and one that goes on has
  trailing bytes**.
-/

namespace FreshLocal

variable {α β ε ε' : Type} {short : ε}

/-- **More bytes behind do not change what is read.** A value is read as before, with these bytes
ahead in addition. A fault stays what it is, unless it is that the bytes ended too early. -/
structure Incremental (short : ε) (read : Cursor → Except ε (α × Cursor)) : Prop where
  value : ∀ {o : Nat} {front : Bytes} {x : α} {c : Cursor} (rest : Bytes),
    read ⟨o, front⟩ = .ok (x, c) → read ⟨o, front ++ rest⟩ = .ok (x, ⟨c.offset, c.ahead ++ rest⟩)
  fault : ∀ {o : Nat} {front : Bytes} {fault : ε} (rest : Bytes),
    read ⟨o, front⟩ = .error fault → fault ≠ short → read ⟨o, front ++ rest⟩ = .error fault

namespace Incremental

/-- A step that takes nothing. -/
theorem ok (x : α) : Incremental short fun c => .ok (x, c) := by
  constructor
  · rintro o front _ _ rest ⟨⟩
    rfl
  · rintro o front fault rest ⟨⟩

theorem error (fault : ε) : Incremental short fun _ => (.error fault : Except ε (α × Cursor)) := by
  constructor
  · rintro o front _ _ rest ⟨⟩
  · rintro o front _ rest ⟨⟩ -
    rfl

/-- **Two steps in a row.** -/
theorem andThen {read : Cursor → Except ε (α × Cursor)} {next : α → Cursor → Except ε (β × Cursor)}
    (h : Incremental short read) (h' : ∀ x, Incremental short (next x)) :
    Incremental short fun c => (read c).bind fun p => next p.1 p.2 := by
  constructor
  · intro o front y c'' rest hy
    obtain ⟨⟨x, c'⟩, hx, hy⟩ := Except.bind_eq_ok.1 hy
    have hx' := h.value rest hx
    have hy' := (h' x).value rest hy
    simp only [hx', Except.bind]
    exact hy'
  · intro o front fault rest hfault hne
    cases hx : read ⟨o, front⟩ with
    | error fault' =>
      rw [hx] at hfault
      cases hfault
      simp only [h.fault rest hx hne, Except.bind]
    | ok p =>
      obtain ⟨x, c'⟩ := p
      rw [hx] at hfault
      simp only [h.value rest hx, Except.bind]
      exact (h' x).fault rest hfault hne

/-- **A strict front of bytes that are used up is too short**, and no other fault is found in it. -/
theorem short_of_front {read : Cursor → Except ε (α × Cursor)} (h : Incremental short read)
    {o : Nat} {front rest : Bytes} {x : α} {c : Cursor}
    (hread : read ⟨o, front ++ rest⟩ = .ok (x, c)) (hend : c.ahead = []) (hrest : rest ≠ []) :
    read ⟨o, front⟩ = .error short := by
  cases hfront : read ⟨o, front⟩ with
  | ok p =>
    -- the rest would be left over in the whole
    obtain ⟨y, c'⟩ := p
    cases hread.symm.trans (h.value rest hfront)
    exact absurd (List.append_eq_nil_iff.1 hend).2 hrest
  | error fault =>
    by_cases hshort : fault = short
    · rw [hshort]
    · cases hread.symm.trans (h.fault rest hfront hshort)

/-- Faults may be put into others. -/
theorem mapError {read : Cursor → Except ε (α × Cursor)} (f : ε → ε') (h : Incremental short read) :
    Incremental (f short) fun c => (read c).mapError f := by
  constructor
  · intro o front x c rest hx
    have hread := h.value rest (Except.mapError_eq_ok.1 hx)
    simp only [hread, Except.mapError]
  · intro o front fault' rest hfault hne
    cases hread : read ⟨o, front⟩ with
    | ok p => rw [hread] at hfault; cases hfault
    | error fault =>
      rw [hread] at hfault
      cases hfault
      have hother : fault ≠ short := fun heq => hne (congrArg f heq)
      simp only [h.fault rest hread hother, Except.mapError]

end Incremental

namespace Reader

variable {r : Reader α} {f : α → Reader β}

/-- A reader that looks only at the bytes that it takes. -/
abbrev IsIncremental (r : Reader α) : Prop := Incremental DecodeFault.truncated r

theorem IsIncremental.bind (h : r.IsIncremental) (h' : ∀ x, (f x).IsIncremental) :
    (r >>= f).IsIncremental :=
  h.andThen h'

theorem incremental_pure (x : α) : (pure x : Reader α).IsIncremental := Incremental.ok x

theorem incremental_throw (fault : DecodeFault) : (throw fault : Reader α).IsIncremental :=
  Incremental.error fault

/-- A step that reads nothing. -/
theorem incremental_lift (e : Except DecodeFault α) : (liftM e : Reader α).IsIncremental := by
  cases e with
  | ok x => exact incremental_pure x
  | error fault => exact incremental_throw fault

theorem IsIncremental.map (g : α → β) (h : r.IsIncremental) : (g <$> r).IsIncremental :=
  h.bind fun x => incremental_pure (g x)

theorem IsIncremental.seq {r' : Reader (α → β)} (h : r'.IsIncremental) (h' : r.IsIncremental) :
    (r' <*> r).IsIncremental :=
  IsIncremental.bind h fun g => h'.map g

/-! ## Numbers and lists -/

theorem incremental_u8 : u8.IsIncremental := by
  constructor
  · intro o front b c rest h
    cases front with
    | nil => cases h
    | cons b' behind => cases h; rfl
  · intro o front fault rest h hne
    cases front with
    | nil => cases h; exact absurd rfl hne
    | cons b' behind => cases h

theorem incremental_numberFrom (high width : Nat) : (numberFrom high width).IsIncremental := by
  induction width generalizing high with
  | zero => exact incremental_pure high
  | succ width ih => exact incremental_u8.bind fun b => ih _

theorem incremental_u16 : u16.IsIncremental := (incremental_numberFrom 0 2).map _

theorem incremental_u32 : u32.IsIncremental := (incremental_numberFrom 0 4).map _

theorem incremental_u64 : u64.IsIncremental := (incremental_numberFrom 0 8).map _

theorem incremental_i32 : i32.IsIncremental := incremental_u32.map _

theorem incremental_i64 : i64.IsIncremental := incremental_u64.map _

/-- The bytes of a structure whose length was read in front of it. -/
theorem incremental_bytes (n : Nat) : (bytes n).IsIncremental := by
  constructor
  · intro o front bs c rest h
    simp only [bytes, List.splitAt_eq] at h ⊢
    split at h
    · rename_i hlength
      cases h
      have hle : n ≤ front.length := by
        rw [List.length_take] at hlength
        omega
      rw [List.take_append_of_le_length hle, List.drop_append_of_le_length hle, if_pos hlength]
    · cases h
  · intro o front fault rest h hne
    simp only [bytes, List.splitAt_eq] at h
    split at h
    · cases h
    · cases h
      exact absurd rfl hne

theorem incremental_timesOnto (h : r.IsIncremental) (n : Nat) (done : List α) :
    (timesOnto r n done).IsIncremental := by
  induction n generalizing done with
  | zero => exact incremental_pure done.reverse
  | succ n ih =>
    rw [timesOnto_succ]
    exact h.bind fun x => ih (x :: done)

/-- **A list behind its length.** -/
theorem incremental_counted (h : r.IsIncremental) : (counted r).IsIncremental :=
  incremental_u16.bind fun n => incremental_timesOnto h n.toNat []

end Reader

open Reader

/-! ## The structures of a class file -/

namespace Constant

theorem incremental_readText : readText.IsIncremental :=
  incremental_u16.bind fun n => (incremental_bytes n.toNat).bind fun body =>
    incremental_lift (ModifiedUtf8.decode body)

theorem incremental_readHandle : readHandle.IsIncremental := by
  refine incremental_u8.bind fun code => ?_
  split
  · exact incremental_u16.map _
  · exact incremental_throw _

/-- **A constant**, whose tag says how it goes on. -/
theorem incremental_read : read.IsIncremental := by
  have hpair {f : UInt16 → UInt16 → Constant} : (f <$> u16 <*> u16).IsIncremental :=
    (incremental_u16.map f).seq incremental_u16
  refine incremental_u8.bind fun tag => ?_
  split
  · exact incremental_readText.map _
  · exact incremental_i32.map _
  · exact incremental_u32.map _
  · exact incremental_i64.map _
  · exact incremental_u64.map _
  · exact incremental_u16.map _
  · exact incremental_u16.map _
  · exact hpair
  · exact hpair
  · exact hpair
  · exact hpair
  · exact incremental_readHandle
  · exact incremental_u16.map _
  · exact hpair
  · exact hpair
  · exact incremental_u16.map _
  · exact incremental_u16.map _
  · exact incremental_throw _

end Constant

namespace ConstantPool

theorem incremental_readOnto (count fuel : Nat) (pool : ConstantPool) :
    Incremental (.decode .truncated) (readOnto count fuel pool) := by
  -- over the fuel: each round reads a constant, or is the last one
  induction fuel generalizing pool with
  | zero => exact Incremental.ok pool
  | succ fuel ih =>
    by_cases hbelow : pool.count < count
    · have hnext : ∀ constant, ∃ next : Cursor → Except Fault (ConstantPool × Cursor),
          Incremental (.decode .truncated) next ∧ ∀ c c', Constant.read c = .ok (constant, c') →
            readOnto count (fuel + 1) pool c = next c' := by
        intro constant
        cases hadd : (add constant).run pool with
        | error fault _ =>
          refine ⟨fun _ => .error fault, Incremental.error fault, fun c c' hc => ?_⟩
          simp only [readOnto, if_pos hbelow, hc, hadd]
        | ok _ added =>
          refine ⟨readOnto count fuel added, ih added, fun c c' hc => ?_⟩
          simp only [readOnto, if_pos hbelow, hc, hadd]
      choose next hincremental hread using hnext
      have hround : readOnto count (fuel + 1) pool = fun c =>
          ((Constant.read c).mapError Fault.decode).bind fun p => next p.1 p.2 := by
        funext c
        cases hc : Constant.read c with
        | error fault => simp only [readOnto, if_pos hbelow, hc]; rfl
        | ok p => exact hread p.1 c p.2 hc
      rw [hround]
      exact (Constant.incremental_read.mapError Fault.decode).andThen hincremental
    · have hlast : readOnto count (fuel + 1) pool = fun c => .ok (pool, c) := by
        funext c
        rw [readOnto, if_neg hbelow]
      rw [hlast]
      exact Incremental.ok pool

/-- **A pool**, in which a constant that cannot be added is a fault as well. -/
theorem incremental_read : Incremental (.decode .truncated) read := by
  have hcount : read = fun c => ((Reader.u16 c).mapError Fault.decode).bind fun p =>
      readOnto p.1.toNat p.1.toNat empty p.2 := by
    funext c
    rw [read]
    cases Reader.u16 c <;> rfl
  rw [hcount]
  exact (incremental_u16.mapError Fault.decode).andThen fun count =>
    incremental_readOnto count.toNat count.toNat empty

end ConstantPool

theorem Flags.incremental_read {known : UInt16} : (read : Reader (Flags known)).IsIncremental :=
  incremental_u16.map _

theorem Version.incremental_read : read.IsIncremental :=
  incremental_u16.bind fun _ => incremental_u16.bind fun _ => incremental_pure _

theorem Attribute.incremental_read : read.IsIncremental :=
  incremental_u16.bind fun _ => incremental_u32.bind fun length =>
    (incremental_bytes length.toNat).bind fun _ => incremental_pure _

theorem Member.incremental_read {known : UInt16} : (read : Reader (Member known)).IsIncremental :=
  Flags.incremental_read.bind fun _ => incremental_u16.bind fun _ => incremental_u16.bind fun _ =>
    (incremental_counted Attribute.incremental_read).bind fun _ => incremental_pure _

namespace ClassFile

theorem incremental_readVersion : readVersion.IsIncremental := by
  refine incremental_u32.bind fun found => ?_
  split
  · exact Version.incremental_read
  · exact incremental_throw _

theorem incremental_readBehind (version : Version) (pool : ConstantPool) :
    (readBehind version pool).IsIncremental :=
  Flags.incremental_read.bind fun _ => incremental_u16.bind fun _ => incremental_u16.bind fun _ =>
    (incremental_counted incremental_u16).bind fun _ =>
    (incremental_counted Member.incremental_read).bind fun _ =>
    (incremental_counted Member.incremental_read).bind fun _ =>
    (incremental_counted Attribute.incremental_read).bind fun _ => incremental_pure _

/-- The class at the front of the bytes ahead, whatever stands behind it. -/
def readFront (c : Cursor) : Except Fault (ClassFile × Cursor) :=
  ((readVersion c).mapError .decode).bind fun (version, c) =>
    (ConstantPool.read c).bind fun (pool, c) => (readBehind version pool c).mapError .decode

theorem incremental_readFront : Incremental (.decode .truncated) readFront :=
  (incremental_readVersion.mapError Fault.decode).andThen fun version =>
    ConstantPool.incremental_read.andThen fun pool =>
      (incremental_readBehind version pool).mapError Fault.decode

/-- A class file is the class at its front, with nothing behind it. -/
theorem read_eq (bytes : Bytes) : read bytes = (readFront (.start bytes)).bind fun (file, c) =>
    if c.ahead.isEmpty then .ok file else .error (.decode (.trailingBytes "ClassFile")) := by
  unfold read readFront
  cases hversion : (readVersion (.start bytes)).mapError Fault.decode with
  | error fault => rfl
  | ok p =>
    obtain ⟨version, c⟩ := p
    simp only [bind, Except.bind]
    cases hpool : ConstantPool.read c with
    | error fault => rfl
    | ok p =>
      obtain ⟨pool, c'⟩ := p
      rfl

/-- The bytes of a class file have a class at their front, and nothing behind it. -/
theorem readFront_of_read {bytes : Bytes} {c : ClassFile} (h : read bytes = .ok c) :
    ∃ last, readFront (.start bytes) = .ok (c, last) ∧ last.ahead = [] := by
  rw [read_eq] at h
  obtain ⟨⟨file, last⟩, hread, hlast⟩ := Except.bind_eq_ok.1 h
  dsimp only at hlast
  split at hlast
  · rename_i hempty
    cases hlast
    exact ⟨last, hread, List.isEmpty_iff.1 hempty⟩
  · cases hlast

/-- **Bytes behind a class file** are left over. -/
theorem read_append {bytes more : Bytes} {c : ClassFile} (h : read bytes = .ok c)
    (hmore : more ≠ []) :
    read (bytes ++ more) = .error (.decode (.trailingBytes "ClassFile")) := by
  obtain ⟨last, hread, hend⟩ := readFront_of_read h
  have hwhole : readFront (.start (bytes ++ more)) =
      .ok (c, ⟨last.offset, last.ahead ++ more⟩) := incremental_readFront.value more hread
  rw [read_eq, hwhole, hend, List.nil_append]
  simp only [Except.bind, List.isEmpty_iff, hmore, if_false]

/-- **A class file is the front of no other, and no other is its front.** Let some bytes be a class
file. Cut anywhere, they are no class file, and all that can be said is that they end too early;
with other bytes behind, these are what is left over. -/
theorem read_prefixFree {bytes : Bytes} {c : ClassFile} (h : read bytes = .ok c) :
    (∀ front, front <+: bytes → front ≠ bytes → read front = .error (.decode .truncated)) ∧
    ∀ more, more ≠ [] → read (bytes ++ more) = .error (.decode (.trailingBytes "ClassFile")) := by
  refine ⟨?_, fun more hmore => read_append h hmore⟩
  obtain ⟨last, hread, hend⟩ := readFront_of_read h
  rintro front ⟨rest, rfl⟩ hne
  have hrest : rest ≠ [] := fun hnil => hne (by rw [hnil, List.append_nil])
  have hshort : readFront (.start front) = .error (.decode .truncated) :=
    incremental_readFront.short_of_front hread hend hrest
  rw [read_eq, hshort]
  rfl

/-- A class with a name and nothing else, in 31 bytes. -/
theorem read_prefixFree_bare :
    let bytes : Bytes := [0xCA, 0xFE, 0xBA, 0xBE, 0, 0, 0, 52, 0, 3, 1, 0, 1, 0x41, 7, 0, 1,
      0, 0x21, 0, 2, 0, 0, 0, 0, 0, 0, 0, 0, 0, 0]
    read bytes = .ok ⟨.java8, ⟨#[none, some (.utf8 "A"), some (.classRef 1)]⟩, .ofBits 0x0021, 2, 0,
      [], #[], #[], #[]⟩ ∧
    (∀ n < 31, read (bytes.take n) = .error (.decode .truncated)) ∧
    read (bytes ++ [0]) = .error (.decode (.trailingBytes "ClassFile")) := by
  intro bytes
  have hread : read bytes = .ok ⟨.java8, ⟨#[none, some (.utf8 "A"), some (.classRef 1)]⟩,
      .ofBits 0x0021, 2, 0, [], #[], #[], #[]⟩ := by decide +kernel
  obtain ⟨hcut, hmore⟩ := read_prefixFree hread
  refine ⟨hread, fun n hn => hcut _ (List.take_prefix n bytes) fun heq => ?_, hmore [0] (by simp)⟩
  have hlength := congrArg List.length heq
  have hall : bytes.length = 31 := rfl
  rw [List.length_take, hall] at hlength
  omega

end ClassFile

end FreshLocal
