import FreshLocal.Proofs.TableBytes

/-!
# What is cut off is not read

The length of an attribute is written in 32 bits and that of a list in 16. Where
this is not enough the bytes go on, but a reader stops early: it gets the front
of an attribute, or the first values of a list.

**Argument.** A reader decides by the bytes that it takes. So what it finds in
the front of some bytes it finds in front of all of them, and then the others are
left. A structure that was written is found in all of its bytes with none left,
so the front is the whole.

* `Reader.Steady`: a reader that decides by the bytes that it takes.
* `Reader.Steady.length_le_of_front`: **a structure is not found in a front of its bytes**.
* `Reader.length_le_of_whole`: nor is a list that is longer than 16 bits can say.
* `Attribute.cut`: what is read of an attribute.
* `ClassFile.read_cut`: **the first attribute of a method that is too long** is cut.
-/

namespace FreshLocal

open Reader

variable {α β : Type} {o : Nat} {rest : Bytes}

namespace Replays

variable {r : Reader α} {again : Bytes → Reader α}

theorem u32 : Replays u32 fun _ => Reader.u32 := (numberFrom 0 4).map _

theorem bytes (n : Nat) : Replays (bytes n) fun _ => Reader.bytes n := by
  intro c bs c' h
  obtain ⟨taken, ha, ho⟩ := advances_bytes n c bs c' h
  have hlen := ensures_bytes n c bs c' h
  simp only [Reader.bytes, List.splitAt_eq] at h
  split at h
  · cases h
    have htaken : c.ahead.take n = taken := by
      have hlength : taken.length = n := by
        have hahead := congrArg List.length ha
        rw [List.length_append, List.length_drop] at hahead
        rw [List.length_take] at hlen
        omega
      have hfront := congrArg (List.take n) ha
      rwa [← hlength, List.take_left, hlength] at hfront
    rw [htaken] at hlen ⊢
    exact ⟨taken, ha, ho, fun _ _ _ => finds_bytes hlen⟩
  · cases h

theorem counted (h : Replays r again) :
    Replays (counted r) fun room => Reader.counted (again room) :=
  u16.bind fun n => h.times n.toNat

end Replays

namespace Reader

variable {r : Reader α} {f : α → Reader β} {bs : Bytes} {x y : α} {c : Cursor} {what : String}

/-- A reader that decides by the bytes that it takes: it finds its value in them, whatever follows
and wherever they stand. -/
def Steady (r : Reader α) : Prop := Replays r fun _ => r

/-- What a steady reader finds in the whole of some bytes it finds in front of others. -/
theorem Steady.of_whole (hr : r.Steady) (h : whole what r bs = .ok x) (rest : Bytes) :
    r (.start (bs ++ rest)) = .ok (x, ⟨bs.length, rest⟩) := by
  unfold whole at h
  split at h
  · cases h
  · rename_i x' c hc
    split at h
    · rename_i hend
      cases h
      obtain ⟨taken, ha, -, hagain⟩ := hr _ _ _ hc
      rw [List.isEmpty_iff.1 hend, List.append_nil] at ha
      have hfound := hagain taken (Nat.le_refl _) 0 rest
      rw [← show bs = taken from ha, Nat.zero_add] at hfound
      exact hfound
    · cases h

/-- **A structure is not found in a front of its bytes.** -/
theorem Steady.length_le_of_front (hr : r.Steady) (hfound : r.Finds 0 bs x) {n : Nat}
    (h : whole what r (bs.take n) = .ok y) : bs.length ≤ n := by
  have hfront := hr.of_whole h (bs.drop n)
  have hall := hfound []
  rw [List.take_append_drop] at hfront
  rw [List.append_nil, ← Cursor.start, hfront] at hall
  obtain ⟨-, hcursor⟩ := Prod.mk.inj (Except.ok.inj hall)
  exact List.drop_eq_nil_iff.1 (Cursor.mk.inj hcursor).2

/-- A step that is found comes before those behind it. -/
theorem Finds.bind_apply (h : r.Finds o bs x) :
    (r >>= f) ⟨o, bs ++ rest⟩ = f x ⟨o + bs.length, rest⟩ := by
  rw [Reader.bind_apply, h]
  rfl

/-! ## Lists -/

theorem toNat_ofNat_length (xs : List α) :
    (UInt16.ofNat xs.length).toNat = xs.length % 65536 := UInt16.toNat_ofNat'

/-- **A list that is too long is not read**: some of its bytes are left. -/
theorem length_le_of_whole {write : α → Bytes} {xs ys : List α} (hwrite : ∀ x ∈ xs, write x ≠ [])
    (hfound : ∀ x ∈ xs, ∀ o, r.Finds o (write x) x)
    (h : whole what (counted r) (Bytes.counted write xs) = .ok ys) : xs.length ≤ 65535 := by
  by_contra hlong
  set n := xs.length % 65536 with hn
  have hlength : (xs.take n).length = n := by
    rw [List.length_take]
    omega
  have htimes : (times n r).Finds 2 ((xs.take n).flatMap write) (xs.take n) := by
    have hfront := finds_times (o := 2)
      fun x (hx : x ∈ xs.take n) => hfound x (List.mem_of_mem_take hx)
    rwa [hlength] at hfront
  have hread : counted r (.start (Bytes.counted write xs)) = .ok (xs.take n,
      ⟨2 + ((xs.take n).flatMap write).length, (xs.drop n).flatMap write⟩) := by
    have hnumber := finds_u16 (o := 0) (UInt16.ofNat xs.length)
    rw [counted, Bytes.counted, Cursor.start, hnumber.bind_apply, toNat_ofNat_length, ← hn,
      Bytes.length_u16, Nat.zero_add]
    have hsplit : xs.flatMap write = (xs.take n).flatMap write ++ (xs.drop n).flatMap write := by
      rw [← List.flatMap_append, List.take_append_drop]
    rw [hsplit]
    exact htimes _
  -- the values behind the first ones are left
  have hleft : (xs.drop n).flatMap write ≠ [] := by
    have hlt : n < xs.length := by omega
    rw [List.drop_eq_getElem_cons hlt, List.flatMap_cons]
    intro hnil
    exact hwrite _ (List.getElem_mem hlt) (List.append_eq_nil_iff.1 hnil).1
  rw [whole, hread] at h
  dsimp only at h
  rw [if_neg (by simpa using hleft)] at h
  cases h

variable {P : α → Prop} {write : α → Bytes} {xs ys : List α}

/-- What the reader of a list does with values of which some cannot be found: those before the first
such value are read, and then something is read in the place of this one. -/
def StopsAt (r : Reader α) (P : α → Prop) (write : α → Bytes) (xs ys : List α) : Prop :=
  ∃ front x behind y more, xs = front ++ x :: behind ∧ ¬ P x ∧ ys = front ++ y :: more ∧
    ∃ o rest c, r ⟨o, write x ++ rest⟩ = .ok (y, c)

theorem timesOnto_stopsAt (hfound : ∀ x, P x → ∀ o, r.Finds o (write x) x) {done : List α}
    (h : timesOnto r xs.length done ⟨o, xs.flatMap write ++ rest⟩ = .ok (ys, c)) :
    (∀ x ∈ xs, P x) ∨ ∃ ys', ys = done.reverse ++ ys' ∧ StopsAt r P write xs ys' := by
  -- over the values: those in front of the first that cannot be found are read as they are
  induction xs generalizing o done with
  | nil => exact .inl fun x hx => absurd hx List.not_mem_nil
  | cons x xs ih =>
    rw [List.length_cons, timesOnto_succ, List.flatMap_cons, List.append_assoc] at h
    by_cases hx : P x
    · rw [(hfound x hx o).bind_apply] at h
      refine (ih h).imp (fun hxs => List.forall_mem_cons.2 ⟨hx, hxs⟩) ?_
      rintro ⟨ys', rfl, front, x', behind, y, more, rfl, hx', rfl, hread⟩
      refine ⟨x :: (front ++ y :: more), by simp, x :: front, x', behind, y, more, rfl, hx', rfl,
        hread⟩
    · obtain ⟨y, c', hy, h⟩ := bind_eq_ok.1 h
      have hall : r.Ensures fun _ => True := fun _ _ _ _ => trivial
      obtain ⟨more, rfl, -, -⟩ := ensures_timesOnto hall _ _ _ _ _ h
      refine .inr ⟨y :: more, by simp, [], x, xs, y, more, rfl, hx, rfl, o, _, c', hy⟩

/-- **The reader of a list** reads all values, or it stops at the first that cannot be found. -/
theorem counted_stopsAt (hfound : ∀ x, P x → ∀ o, r.Finds o (write x) x)
    (hlen : xs.length ≤ 65535)
    (h : counted r ⟨o, Bytes.counted write xs ++ rest⟩ = .ok (ys, c)) :
    (∀ x ∈ xs, P x) ∨ StopsAt r P write xs ys := by
  rw [counted, Bytes.counted, List.append_assoc, (finds_u16 _).bind_apply, toNat_ofNat_length,
    Nat.mod_eq_of_lt (by omega)] at h
  refine (timesOnto_stopsAt hfound h).imp id ?_
  rintro ⟨ys', rfl, hstops⟩
  exact hstops

end Reader

/-! ## Attributes -/

namespace Attribute

/-- The attribute as it is read: 32 bits of the length of its body are written. -/
def cut (a : Attribute) : Attribute := ⟨a.name, a.body.take (a.body.length % 2 ^ 32)⟩

/-- **An attribute is read** as far as its length says. -/
theorem read_cut {a y : Attribute} {c : Cursor} (h : read ⟨o, a.write ++ rest⟩ = .ok (y, c)) :
    y = a.cut := by
  rw [write, List.append_assoc, List.append_assoc, read, (finds_u16 _).bind_apply,
    (finds_u32 _).bind_apply, UInt32.toNat_ofNat'] at h
  have hle := Nat.mod_le a.body.length (2 ^ 32)
  have hbody : (Reader.bytes (a.body.length % 2 ^ 32)).Finds
      (o + (Bytes.u16 a.name).length + (Bytes.u32 (UInt32.ofNat a.body.length)).length)
      (a.body.take (a.body.length % 2 ^ 32)) (a.body.take (a.body.length % 2 ^ 32)) :=
    finds_bytes (by rw [List.length_take]; omega)
  rw [← List.take_append_drop (a.body.length % 2 ^ 32) a.body, List.append_assoc,
    List.take_append_drop, hbody.bind_apply] at h
  cases h
  rfl

/-- Attributes that are written and read, of which the first that is too long is cut. -/
def CutIn (as as' : List Attribute) : Prop :=
  ∃ front a behind more, as = front ++ a :: behind ∧ ¬ a.Fits ∧ as' = front ++ a.cut :: more

/-- **Attributes are read back**, or the first that is too long is cut. -/
theorem counted_cut {as as' : List Attribute} {c : Cursor} (hlen : as.length ≤ 65535)
    (h : Reader.counted read ⟨o, Bytes.counted write as ++ rest⟩ = .ok (as', c)) :
    (∀ a ∈ as, a.Fits) ∨ CutIn as as' := by
  refine (counted_stopsAt (fun a ha o => finds_write ha) hlen h).imp id ?_
  rintro ⟨front, a, behind, y, more, rfl, ha, rfl, o, rest, c, hread⟩
  exact ⟨front, a, behind, more, rfl, ha, by rw [read_cut hread]⟩

end Attribute

/-- **A member is read back**, or the first of its attributes that is too long is cut. -/
theorem Member.read_cut {known : UInt16} {m m' : Member known} {c : Cursor}
    (hlen : m.attributes.length ≤ 65535) (h : read ⟨o, m.write ++ rest⟩ = .ok (m', c)) :
    m.Fits ∨ m' = { m with attributes := m'.attributes } ∧
      Attribute.CutIn m.attributes m'.attributes := by
  rw [write, List.append_assoc, List.append_assoc, List.append_assoc, read,
    m.flags.finds_write.bind_apply, (finds_u16 _).bind_apply, (finds_u16 _).bind_apply] at h
  obtain ⟨attributes, c', hattributes, h⟩ := bind_eq_ok.1 h
  cases h
  exact (Attribute.counted_cut hlen hattributes).imp (fun hfits => ⟨hlen, hfits⟩)
    fun hcut => ⟨rfl, hcut⟩

/-! ## Code -/

theorem Handler.steady_read : read.Steady :=
  Replays.u16.bind fun _ => Replays.u16.bind fun _ => Replays.u16.bind fun _ =>
    Replays.u16.bind fun _ => Replays.pure _

theorem Attribute.steady_read : read.Steady :=
  Replays.u16.bind fun _ => Replays.u32.bind fun length =>
    (Replays.bytes length.toNat).bind fun _ => Replays.pure _

theorem StoredType.steady_read : read.Steady := by
  refine Replays.u8.bind fun tag => ?_
  split
  case h_8 => exact Replays.u16.map _
  case h_9 => exact Replays.u16.map _
  case h_10 => exact Replays.throw
  all_goals exact Replays.pure _

theorem StackMapFrame.steady_read : read.Steady := by
  refine Replays.u8.bind fun tag => ?_
  unfold readTagged
  split
  · exact Replays.pure _
  split
  · exact StoredType.steady_read.bind fun _ => Replays.pure _
  split
  · exact Replays.throw
  refine Replays.u16.bind fun distance => ?_
  split
  · exact StoredType.steady_read.bind fun _ => Replays.pure _
  split
  · exact Replays.pure _
  split
  · exact Replays.pure _
  split
  · exact (StoredType.steady_read.times _).bind fun _ => Replays.pure _
  · exact StoredType.steady_read.counted.bind fun _ =>
      StoredType.steady_read.counted.bind fun _ => Replays.pure _

namespace CodeAttribute

variable {c c' : CodeAttribute}

theorem steady_reader : reader.Steady :=
  Replays.u16.bind fun _ => Replays.u16.bind fun _ => Replays.u32.bind fun length =>
    (Replays.bytes length.toNat).bind fun _ => Handler.steady_read.counted.bind fun _ =>
      Attribute.steady_read.counted.bind fun _ => Replays.pure _

/-- **A front of a code attribute is read** only if an attribute in it is too long. Then the first
such one is cut. -/
theorem read_cut (hcode : c.code.length < 2 ^ 32)
    (hhandlers : c.handlers.length ≤ 65535 ∧ ∀ h ∈ c.handlers, h.Fits)
    (hattributes : c.attributes.length ≤ 65535) {n : Nat} (h : read (c.write.take n) = .ok c') :
    (c.write.length ≤ n ∧ c.Fits) ∨ Attribute.CutIn c.attributes c'.attributes := by
  -- what is read from the front is read from the whole as well
  have hread := steady_reader.of_whole h (c.write.drop n)
  rw [List.take_append_drop] at hread
  have hlen : (UInt32.ofNat c.code.length).toNat = c.code.length := by
    rw [UInt32.toNat_ofNat']
    omega
  have hwrite : c.write = .u16 c.maxStack ++ (.u16 c.maxLocals ++
      (.u32 (UInt32.ofNat c.code.length) ++ (c.code ++ (Bytes.counted Handler.write c.handlers ++
        (Bytes.counted Attribute.write c.attributes ++ []))))) := by
    simp only [write, List.append_assoc, List.append_nil]
  rw [Cursor.start, hwrite, reader, (finds_u16 _).bind_apply, (finds_u16 _).bind_apply,
    (finds_u32 _).bind_apply, (finds_bytes hlen.symm).bind_apply,
    (finds_counted hhandlers.1 fun x hx o => Handler.finds_write (hhandlers.2 x hx)).bind_apply]
    at hread
  obtain ⟨attributes, cursor, hread, hc⟩ := bind_eq_ok.1 hread
  obtain hfits | hcut := Attribute.counted_cut hattributes hread
  · have hall : c.Fits := ⟨hcode, hhandlers, hattributes, hfits⟩
    exact .inl ⟨steady_reader.length_le_of_front (finds_write hall) h, hall⟩
  · have hsame : c'.attributes = attributes := by
      cases hc
      rfl
    exact .inr (hsame ▸ hcut)

end CodeAttribute

/-- **A front of a table of frames is not read.** -/
theorem StackMapFrame.length_le_of_front {frames frames' : List StackMapFrame}
    (hlen : frames.length ≤ 65535) (h : ∀ f ∈ frames, f.frame.Fits) {n : Nat}
    (hread : readTable ((writeTable frames).take n) = .ok frames') :
    (writeTable frames).length ≤ n :=
  Steady.length_le_of_front (Replays.counted steady_read)
    (finds_counted hlen fun f hf _ => finds_write (h f hf)) hread

/-! ## Classes -/

namespace ClassFile

variable {c c' : ClassFile}

/-- What stands behind the constant pool is read behind it. -/
theorem readBehind_of_read (hpool : c.pool.Stored) (h : read c.write = .ok c') :
    ∃ o cursor, readBehind c.version c.pool ⟨o, c.writeBehind⟩ = .ok (c', cursor) := by
  have hversion := finds_version (o := 0) c.version (c.pool.write ++ c.writeBehind)
  have hread := ConstantPool.read_write hpool (0 + (Bytes.u32 magic ++ c.version.write).length)
    c.writeBehind
  rw [write_eq] at h
  obtain ⟨⟨v, cursor⟩, hv, h⟩ := Except.bind_eq_ok.1 h
  cases (Except.mapError_eq_ok.1 hv).symm.trans hversion
  obtain ⟨⟨pool, cursor'⟩, hp, h⟩ := Except.bind_eq_ok.1 h
  cases hp.symm.trans hread
  obtain ⟨⟨file, cursor''⟩, hbehind, h⟩ := Except.bind_eq_ok.1 h
  refine ⟨_, cursor'', (Except.mapError_eq_ok.1 hbehind).trans ?_⟩
  dsimp only at h
  split at h
  · cases h; rfl
  · cases h

/-- **A class is read back**, or in one of its methods the first attribute that is too long is
cut. -/
theorem read_cut (hpool : c.pool.Stored) (hinterfaces : c.interfaces.length ≤ 65535)
    (hfields : c.fields.toList.length ≤ 65535 ∧ ∀ f ∈ c.fields.toList, f.Fits)
    (hmethods : c.methods.toList.length ≤ 65535 ∧
      ∀ m ∈ c.methods.toList, m.attributes.length ≤ 65535)
    (h : read c.write = .ok c') :
    (∀ m ∈ c.methods.toList, m.Fits) ∨ c'.pool = c.pool ∧ ∃ m ∈ c.methods.toList,
      ∃ m' ∈ c'.methods.toList, m' = { m with attributes := m'.attributes } ∧
        Attribute.CutIn m.attributes m'.attributes := by
  obtain ⟨o, cursor, hbehind⟩ := readBehind_of_read hpool h
  rw [readBehind, writeBehind, c.flags.finds_write.bind_apply, (finds_u16 _).bind_apply,
    (finds_u16 _).bind_apply, (finds_counted hinterfaces fun i _ o => finds_u16 i).bind_apply,
    (finds_counted hfields.1 fun f hf o => Member.finds_write (hfields.2 f hf)).bind_apply]
    at hbehind
  obtain ⟨methods, c₁, hread, hbehind⟩ := bind_eq_ok.1 hbehind
  obtain ⟨attributes, c₂, -, hbehind⟩ := bind_eq_ok.1 hbehind
  cases hbehind
  refine (counted_stopsAt (fun m hm o => Member.finds_write hm) hmethods.1 hread).imp id ?_
  rintro ⟨front, m, behind, m', more, hms, hm, rfl, o, rest, c₃, hread'⟩
  have hmem : m ∈ c.methods.toList := by rw [hms]; simp
  have hcut := (Member.read_cut (hmethods.2 m hmem) hread').resolve_left hm
  exact ⟨rfl, m, hmem, m', by simp, hcut⟩

end ClassFile

end FreshLocal
