import FreshLocal.CodeAttribute
import FreshLocal.Proofs.AnnotationBytes
import FreshLocal.Proofs.ClassBytes

/-!
# The code attribute as bytes

The code attribute and the tables in it are read back from their bytes, if their
lists are not longer than the format can say.

* `Frame.Fits`, `Handler.Fits`, `CodeAttribute.Fits`: what can be written.
* `StackMapFrame.readTagged_same` and those behind it: what a tag says of its frame.
* `StackMapFrame.finds_write`: **a frame is read back from its bytes**.
* `CodeAttribute.read_write`: **a code attribute is read back from its bytes**.
* `readTable_write`: **so is a table in it**.
-/

namespace FreshLocal

open Reader

variable {o : Nat}

theorem StoredType.write_ne_nil (t : StoredType) : t.write ≠ [] := by
  cases t <;> simp [write, Bytes.u8]

theorem StoredType.finds_write (t : StoredType) : read.Finds o t.write t := by
  cases t with
  | object index => exact (finds_u8 7).bind ((finds_u16 index).map _)
  | uninitialized offset => exact (finds_u8 8).bind ((finds_u16 offset).map _)
  | top => exact (finds_u8 0).bind_nil (finds_pure _)
  | integer => exact (finds_u8 1).bind_nil (finds_pure _)
  | float => exact (finds_u8 2).bind_nil (finds_pure _)
  | double => exact (finds_u8 3).bind_nil (finds_pure _)
  | long => exact (finds_u8 4).bind_nil (finds_pure _)
  | null => exact (finds_u8 5).bind_nil (finds_pure _)
  | uninitializedThis => exact (finds_u8 6).bind_nil (finds_pure _)

/-- Can the frame be written? -/
def Frame.Fits {κ π : Type} : Frame κ π → Prop
  | chop count => 1 ≤ count ∧ count ≤ 3
  | append more => 1 ≤ more.length ∧ more.length ≤ 3
  | full locals stack => locals.length ≤ 65535 ∧ stack.length ≤ 65535
  | _ => True

namespace StackMapFrame

/-- Each frame has a tag. -/
theorem write_ne_nil (f : StackMapFrame) : f.write ≠ [] := by
  obtain ⟨distance, frame⟩ := f
  cases frame with
  | same => simp only [write]; split <;> simp [Bytes.u8]
  | sameOne t => simp [write, StoredType.write_ne_nil]
  | _ => simp [write, Bytes.u8]

/-- **The tag of a frame that changes nothing** is its distance, if that is small. -/
theorem readTagged_same {d : UInt16} (hd : d ≤ 63) : readTagged d.toUInt8 = pure ⟨d, .same⟩ := by
  have hsmall : d.toNat ≤ 63 := UInt16.le_iff_toNat_le.1 hd
  have hlt : d.toUInt8 < 64 := by
    rw [UInt8.lt_iff_toNat_lt, UInt16.toNat_toUInt8]
    simp only [UInt8.reduceToNat]
    omega
  have hle : d ≤ 255 := by
    rw [UInt16.le_iff_toNat_le]
    simp only [UInt16.reduceToNat]
    omega
  rw [readTagged, if_pos hlt, UInt16.toUInt16_toUInt8_of_le hle]

/-- **The tag of a frame with one value on the stack** tells a small distance by its place behind
the tags of the frames that change nothing. -/
theorem readTagged_sameOne {d : UInt16} (hd : d ≤ 63) :
    readTagged (d.toUInt8 + 64) = StoredType.read >>= fun t => pure ⟨d, .sameOne t⟩ := by
  have hsmall : d.toNat ≤ 63 := UInt16.le_iff_toNat_le.1 hd
  have hnat : (d.toUInt8 + 64).toNat = d.toNat + 64 := by
    rw [UInt8.toNat_add, UInt16.toNat_toUInt8]
    simp only [UInt8.reduceToNat]
    omega
  have hge : ¬ d.toUInt8 + 64 < 64 := by
    rw [UInt8.lt_iff_toNat_lt, hnat]
    simp only [UInt8.reduceToNat]
    omega
  have hlt : d.toUInt8 + 64 < 128 := by
    rw [UInt8.lt_iff_toNat_lt, hnat]
    simp only [UInt8.reduceToNat]
    omega
  have hback : (d.toUInt8 + 64).toUInt16 - 64 = d := by
    rw [← UInt16.toNat_inj, UInt16.toNat_sub_of_le]
    · rw [UInt8.toNat_toUInt16, hnat]; simp
    · rw [UInt16.le_iff_toNat_le, UInt8.toNat_toUInt16, hnat]; simp
  rw [readTagged, if_neg hge, if_pos hlt, hback]

/-- **The tag of a frame that takes locals** counts them down from 251. -/
theorem readTagged_chop {count : UInt8} (h : 1 ≤ count ∧ count ≤ 3) :
    readTagged (251 - count) = Reader.u16 >>= fun d => pure ⟨d, .chop count⟩ := by
  have hone : 1 ≤ count.toNat := UInt8.le_iff_toNat_le.1 h.1
  have hthree : count.toNat ≤ 3 := UInt8.le_iff_toNat_le.1 h.2
  have hcount : count = 1 ∨ count = 2 ∨ count = 3 := by
    simp only [← UInt8.toNat_inj, UInt8.reduceToNat]
    omega
  obtain rfl | rfl | rfl := hcount <;> rfl

/-- **The tag of a frame that adds locals** counts them up from 251. -/
theorem readTagged_append {count : Nat} (h : 1 ≤ count ∧ count ≤ 3) :
    readTagged (251 + UInt8.ofNat count) = Reader.u16 >>= fun d =>
      Reader.times count StoredType.read >>= fun more => pure ⟨d, .append more⟩ := by
  have hcount : count = 1 ∨ count = 2 ∨ count = 3 := by omega
  obtain rfl | rfl | rfl := hcount <;> rfl

/-- **A frame is read back from its bytes.** -/
theorem finds_write {f : StackMapFrame} (h : f.frame.Fits) : read.Finds o f.write f := by
  obtain ⟨distance, frame⟩ := f
  cases frame with
  | same =>
    simp only [write]
    split
    · rename_i hd
      refine (finds_u8 _).bind_nil ?_
      rw [readTagged_same hd]
      exact finds_pure _
    · exact (finds_u8 251).bind ((finds_u16 distance).bind_nil (finds_pure _))
  | sameOne t =>
    simp only [write]
    split
    · rename_i hd
      refine (finds_u8 _).bind ?_
      rw [readTagged_sameOne hd]
      exact (StoredType.finds_write t).bind_nil (finds_pure _)
    · rw [List.append_assoc]
      refine (finds_u8 247).bind ((finds_u16 distance).bind ?_)
      exact (StoredType.finds_write t).bind_nil (finds_pure _)
  | chop count =>
    refine (finds_u8 _).bind ?_
    rw [readTagged_chop h]
    exact (finds_u16 distance).bind_nil (finds_pure _)
  | append more =>
    have hmore : ∀ o, (Reader.times more.length StoredType.read).Finds o
        (more.flatMap StoredType.write) more :=
      fun o => finds_times fun t _ _ => StoredType.finds_write t
    simp only [write, List.append_assoc]
    refine (finds_u8 _).bind ?_
    rw [readTagged_append h]
    exact (finds_u16 distance).bind ((hmore _).bind_nil (finds_pure _))
  | full locals stack =>
    have hwrite : write ⟨distance, .full locals stack⟩ = .u8 255 ++ (.u16 distance ++
        (.counted StoredType.write locals ++ .counted StoredType.write stack)) := by
      simp only [write, List.append_assoc]
    rw [hwrite]
    refine (finds_u8 255).bind ((finds_u16 distance).bind ?_)
    refine (finds_counted h.1 fun t _ _ => StoredType.finds_write t).bind ?_
    exact (finds_counted h.2 fun t _ _ => StoredType.finds_write t).bind_nil (finds_pure _)

/-- A frame that was read can be written. -/
theorem ensures_fits : read.Ensures fun f => f.frame.Fits := by
  have htrue : StoredType.read.Ensures fun _ => True := fun _ _ _ _ => trivial
  refine Ensures.bind fun tag => ?_
  unfold readTagged
  split
  · exact ensures_pure trivial
  split
  · exact Ensures.bind fun t => ensures_pure trivial
  split
  · exact ensures_throw
  rename_i hreserved
  refine Ensures.bind fun distance => ?_
  split
  · exact Ensures.bind fun t => ensures_pure trivial
  rename_i hsameOne
  split
  · rename_i hchop
    have hcount : 1 ≤ 251 - tag ∧ 251 - tag ≤ 3 := by grind
    exact ensures_pure hcount
  split
  · exact ensures_pure trivial
  rename_i hchop hsame
  split
  · rename_i happend
    refine (ensures_times htrue _).bind_of fun more hmore => ensures_pure ?_
    -- the tags from 252 to 254 add one to three locals
    have hlow : 251 < tag.toNat := by
      rw [UInt8.lt_iff_toNat_lt] at hchop
      rw [← UInt8.toNat_inj] at hsame
      simp only [UInt8.reduceToNat] at hchop hsame
      omega
    have hhigh : tag.toNat < 255 := UInt8.lt_iff_toNat_lt.1 happend
    refine ⟨?_, ?_⟩
    · rw [hmore.1]; omega
    · rw [hmore.1]; omega
  · refine (ensures_counted htrue).bind_of fun locals hlocals => ?_
    exact (ensures_counted htrue).bind_of fun stack hstack => ensures_pure ⟨hlocals.1, hstack.1⟩

/-- **A table of frames is read back.** -/
theorem readTable_write {frames : List StackMapFrame} (hlen : frames.length ≤ 65535)
    (h : ∀ f ∈ frames, f.frame.Fits) : readTable (writeTable frames) = .ok frames :=
  (finds_counted hlen fun f hf _ => finds_write (h f hf)).whole

theorem withOffsetsOnto_eq {α : Type} (before : Option Nat) (xs : List (UInt16 × α))
    (done : List (Nat × α)) :
    withOffsetsOnto before xs done = done.reverse ++ withOffsetsOnto before xs [] := by
  induction xs generalizing before done with
  | nil => simp [withOffsetsOnto]
  | cons x xs ih =>
    obtain ⟨d, x⟩ := x
    simp only [withOffsetsOnto]
    rw [ih _ (_ :: done), ih _ [_]]
    simp

/-- The offset of the first of some frames, and those of the others. -/
theorem withOffsetsOnto_cons {α : Type} (before : Option Nat) (d : UInt16) (x : α)
    (xs : List (UInt16 × α)) : withOffsetsOnto before ((d, x) :: xs) [] =
      (offset before d.toNat, x) :: withOffsetsOnto (some (offset before d.toNat)) xs [] := by
  simp only [withOffsetsOnto]
  rw [withOffsetsOnto_eq]
  rfl

/-- Working out offsets leaves the frames as they are. -/
theorem map_snd_withOffsetsOnto {α : Type} (before : Option Nat) (xs : List (UInt16 × α)) :
    (withOffsetsOnto before xs []).map Prod.snd = xs.map Prod.snd := by
  induction xs generalizing before with
  | nil => rfl
  | cons x xs ih => rw [withOffsetsOnto_cons, List.map_cons, ih, List.map_cons]

end StackMapFrame

theorem LineNumber.finds_write (l : LineNumber) : read.Finds o l.write l :=
  (finds_u16 l.start).bind ((finds_u16 l.line).bind_nil (finds_pure l))

/-- **A table of lines is read back.** -/
theorem LineNumber.readTable_write {lines : List LineNumber} (hlen : lines.length ≤ 65535) :
    readTable (writeTable lines) = .ok lines :=
  (finds_counted hlen fun l _ _ => l.finds_write).whole

theorem VariableEntry.finds_write (v : VariableEntry) : read.Finds o v.write v := by
  simp only [write, List.append_assoc]
  refine (finds_u16 v.start).bind ((finds_u16 v.length).bind ((finds_u16 v.name).bind ?_))
  exact (finds_u16 v.type).bind ((finds_u16 v.slot).bind_nil (finds_pure v))

/-- **A table of variables is read back.** -/
theorem VariableEntry.readTable_write {entries : List VariableEntry} (isGeneric : Bool)
    (hlen : entries.length ≤ 65535) :
    readTable isGeneric (writeTable entries) = .ok entries :=
  (finds_counted hlen fun v _ _ => v.finds_write).whole

/-- **A table of annotations is read back.** -/
theorem AnnotatedType.readTable_write {annotations : List (AnnotatedType UInt16)} {visible : Bool}
    (hlen : annotations.length ≤ 65535) (h : ∀ a ∈ annotations, a.Fits ∧ a.visible = visible) :
    readTable visible (writeTable annotations) = .ok annotations := by
  refine (finds_counted hlen fun a ha o => ?_).whole
  obtain ⟨hfits, rfl⟩ := h a ha
  exact finds_write hfits

namespace Handler

/-- The index 0 is not free to name a class. -/
def Fits {π : Type} (h : Handler π) : Prop := h.catchType ≠ some 0

theorem finds_write {h : Handler UInt16} (hfits : h.Fits) : read.Finds o h.write h := by
  simp only [write, List.append_assoc]
  refine (finds_u16 _).bind ((finds_u16 _).bind ((finds_u16 _).bind ((finds_u16 _).bind_nil ?_)))
  obtain ⟨start, stop, target, _ | index⟩ := h
  · exact finds_pure _
  · have hne : index ≠ 0 := fun h0 => hfits (by rw [h0])
    simp only [Option.getD_some, if_neg hne]
    exact finds_pure _

theorem ensures_fits : read.Ensures Fits := by
  refine Ensures.bind fun _ => Ensures.bind fun _ => Ensures.bind fun _ =>
    Ensures.bind fun index => ?_
  refine ensures_pure ?_
  simp only [Fits]
  split
  · simp
  · rename_i hne; simpa using hne

end Handler

namespace CodeAttribute

/-- A code attribute that can be written. -/
structure Fits (c : CodeAttribute) : Prop where
  code : c.code.length < 2 ^ 32
  handlers : c.handlers.length ≤ 65535 ∧ ∀ h ∈ c.handlers, h.Fits
  attributes : c.attributes.length ≤ 65535 ∧ ∀ a ∈ c.attributes, a.Fits

/-- **A code attribute is found in its bytes.** -/
theorem finds_write {c : CodeAttribute} (h : c.Fits) : reader.Finds o c.write c := by
  have hlen : (UInt32.ofNat c.code.length).toNat = c.code.length := by
    have hcode := h.code
    rw [UInt32.toNat_ofNat']
    omega
  simp only [write, List.append_assoc]
  refine (finds_u16 _).bind ((finds_u16 _).bind ((finds_u32 _).bind
    ((finds_bytes hlen.symm).bind ?_)))
  refine (finds_counted h.handlers.1 fun x hx o => Handler.finds_write (h.handlers.2 x hx)).bind ?_
  exact (finds_counted h.attributes.1
    fun a ha o => Attribute.finds_write (h.attributes.2 a ha)).bind_nil (finds_pure c)

/-- **A code attribute is read back from its bytes.** -/
theorem read_write {c : CodeAttribute} (h : c.Fits) : read c.write = .ok c := (finds_write h).whole

/-- **A code attribute that was read** can be written. -/
theorem fits_of_read {body : Bytes} {c : CodeAttribute} (h : read body = .ok c) : c.Fits := by
  refine Ensures.of_whole ?_ h
  refine Ensures.bind fun _ => Ensures.bind fun _ => Ensures.bind fun length => ?_
  refine (ensures_bytes _).bind_of fun code hcode => ?_
  refine (ensures_counted Handler.ensures_fits).bind_of fun handlers hhandlers => ?_
  refine (ensures_counted Attribute.ensures_fits).bind_of fun attributes hattributes => ?_
  refine ensures_pure ⟨?_, hhandlers, hattributes⟩
  have hlt := length.toNat_lt
  change code.length < 2 ^ 32
  omega

end CodeAttribute

end FreshLocal
