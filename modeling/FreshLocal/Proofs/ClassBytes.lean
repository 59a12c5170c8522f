import FreshLocal.ClassFile
import FreshLocal.Proofs.PoolBytes

/-!
# Class files as bytes

A class is read back from its bytes if its lists and its attributes are not
longer than the file can say. What was read has this property, and so does what
is built from it, as far as its parts stay small.

* `Attribute.Fits`, `Member.Fits`, `ClassFile.Stored`: what a file can hold.
* `ClassFile.read_write`: **a class is read back from its bytes**.
* `ClassFile.stored_of_read`: what was read can be written.
-/

namespace FreshLocal

open Reader

variable {o : Nat} {known : UInt16}

theorem Flags.finds_write (flags : Flags known) : read.Finds o flags.write flags := by
  have h := (finds_u16 (o := o) flags.bits).map (ofBits : UInt16 → Flags known)
  have hbits : ofBits flags.bits = flags := by
    obtain ⟨bits, hknown⟩ := flags
    simp only [ofBits, hknown]
  rwa [hbits] at h

theorem Version.finds_write (v : Version) : read.Finds o v.write v :=
  (finds_u16 v.minor).bind ((finds_u16 v.major).bind_nil (finds_pure v))

namespace Attribute

/-- Can the length of the body be written? -/
def Fits (a : Attribute) : Prop := a.body.length < 2 ^ 32

theorem finds_write {a : Attribute} (h : a.Fits) : read.Finds o a.write a := by
  have hlen : (UInt32.ofNat a.body.length).toNat = a.body.length := by
    unfold Fits at h
    rw [UInt32.toNat_ofNat']
    omega
  have hwrite : a.write = .u16 a.name ++ (.u32 (UInt32.ofNat a.body.length) ++ a.body) := by
    rw [write, List.append_assoc]
  rw [hwrite]
  refine (finds_u16 _).bind ((finds_u32 _).bind ?_)
  exact (finds_bytes hlen.symm).bind_nil (finds_pure a)

theorem length_body_le (a : Attribute) : a.body.length ≤ a.write.length := by
  rw [write, List.length_append]
  omega

theorem ensures_fits : read.Ensures Fits := by
  refine Ensures.bind fun name => Ensures.bind fun length => ?_
  refine (ensures_bytes _).bind_of fun body hbody => ensures_pure ?_
  have hlt := length.toNat_lt
  change body.length < 2 ^ 32
  omega

end Attribute

namespace Member

/-- Can the lengths of the attributes be written, and their number? -/
def Fits (m : Member known) : Prop :=
  m.attributes.length ≤ 65535 ∧ ∀ a ∈ m.attributes, a.Fits

theorem finds_write {m : Member known} (h : m.Fits) : read.Finds o m.write m := by
  have hwrite : m.write = m.flags.write ++ (.u16 m.name ++ (.u16 m.descriptor ++
      .counted Attribute.write m.attributes)) := by
    simp only [write, List.append_assoc]
  rw [hwrite]
  refine m.flags.finds_write.bind ((finds_u16 _).bind ((finds_u16 _).bind ?_))
  exact (finds_counted h.1 fun a ha o => Attribute.finds_write (h.2 a ha)).bind_nil (finds_pure m)

theorem ensures_fits : (read : Reader (Member known)).Ensures Fits := by
  refine Ensures.bind fun flags => Ensures.bind fun name => Ensures.bind fun descriptor => ?_
  exact (ensures_counted Attribute.ensures_fits).bind_of fun attributes h => ensures_pure h

end Member

namespace ClassFile

/-- A class that a file can hold. -/
structure Stored (c : ClassFile) : Prop where
  pool : c.pool.Stored
  interfaces : c.interfaces.length ≤ 65535
  fields : c.fields.toList.length ≤ 65535 ∧ ∀ f ∈ c.fields.toList, f.Fits
  methods : c.methods.toList.length ≤ 65535 ∧ ∀ m ∈ c.methods.toList, m.Fits
  attributes : c.attributes.toList.length ≤ 65535 ∧ ∀ a ∈ c.attributes.toList, a.Fits

theorem finds_version (v : Version) : readVersion.Finds o (.u32 magic ++ v.write) v := by
  refine (finds_u32 magic).bind ?_
  rw [if_pos rfl]
  exact v.finds_write

/-- What stands behind the constant pool. -/
def writeBehind (c : ClassFile) : Bytes :=
  c.flags.write ++ (.u16 c.thisClass ++ (.u16 c.superClass ++ (.counted Bytes.u16 c.interfaces ++
    (.counted Member.write c.fields.toList ++ (.counted Member.write c.methods.toList ++
      .counted Attribute.write c.attributes.toList)))))

theorem write_eq (c : ClassFile) :
    c.write = (.u32 magic ++ c.version.write) ++ (c.pool.write ++ c.writeBehind) := by
  simp only [write, writeBehind, List.append_assoc]

theorem finds_behind {c : ClassFile} (h : c.Stored) :
    (readBehind c.version c.pool).Finds o c.writeBehind c := by
  refine c.flags.finds_write.bind ((finds_u16 _).bind ((finds_u16 _).bind ?_))
  refine (finds_counted h.interfaces fun i _ o => finds_u16 i).bind ?_
  refine (finds_counted h.fields.1 fun f hf o => Member.finds_write (h.fields.2 f hf)).bind ?_
  refine (finds_counted h.methods.1 fun m hm o => Member.finds_write (h.methods.2 m hm)).bind ?_
  exact (finds_counted h.attributes.1
    fun a ha o => Attribute.finds_write (h.attributes.2 a ha)).bind_nil (finds_pure c)

/-- **A class is read back from its bytes.** -/
theorem read_write {c : ClassFile} (h : c.Stored) : read c.write = .ok c := by
  have hversion := finds_version (o := 0) c.version (c.pool.write ++ c.writeBehind)
  have hpool := ConstantPool.read_write h.pool (0 + (Bytes.u32 magic ++ c.version.write).length)
    c.writeBehind
  have hbehind := finds_behind (o := 0 + (Bytes.u32 magic ++ c.version.write).length +
    c.pool.write.length) h []
  rw [List.append_nil] at hbehind
  rw [write_eq, read, Cursor.start, hversion]
  simp only [Except.mapError, bind, Except.bind, hpool, hbehind]
  rfl

/-- A body is no longer than the file that holds it. -/
theorem length_body_le {c : ClassFile} {m : Method} (hm : m ∈ c.methods) {a : Attribute}
    (ha : a ∈ m.attributes) : a.body.length ≤ c.write.length := by
  have hattribute := a.length_body_le
  have hlist := Bytes.length_le_counted Attribute.write ha
  have hmethod := Bytes.length_le_counted Member.write (Array.mem_toList_iff.2 hm)
  have hmember : (Bytes.counted Attribute.write m.attributes).length ≤ m.write.length := by
    rw [Member.write, List.length_append]
    omega
  have hclass : (Bytes.counted Member.write c.methods.toList).length ≤ c.write.length := by
    simp only [write, List.length_append]
    omega
  omega

/-- **A class that was read** can be written. -/
theorem stored_of_read {bytes : Bytes} {c : ClassFile} (h : read bytes = .ok c) : c.Stored := by
  have hbehind : ∀ v (pool : ConstantPool), pool.Stored → (readBehind v pool).Ensures Stored := by
    intro v pool hpool
    refine Ensures.bind fun flags => Ensures.bind fun this => Ensures.bind fun super => ?_
    have htrue : Reader.u16.Ensures fun _ => True := fun _ _ _ _ => trivial
    refine (ensures_counted htrue).bind_of fun interfaces hinterfaces => ?_
    refine (ensures_counted Member.ensures_fits).bind_of fun fields hfields => ?_
    refine (ensures_counted Member.ensures_fits).bind_of fun methods hmethods => ?_
    refine (ensures_counted Attribute.ensures_fits).bind_of fun attributes hattributes => ?_
    exact ensures_pure ⟨hpool, hinterfaces.1, hfields, hmethods, hattributes⟩
  obtain ⟨⟨v, cursor⟩, -, h⟩ := Except.bind_eq_ok.1 h
  obtain ⟨⟨pool, cursor'⟩, hpool, h⟩ := Except.bind_eq_ok.1 h
  obtain ⟨⟨file, cursor''⟩, hfile, h⟩ := Except.bind_eq_ok.1 h
  have hstored := hbehind v pool (ConstantPool.stored_of_read hpool) _ _ _
    (Except.mapError_eq_ok.1 hfile)
  dsimp only at h
  split at h
  · cases h; exact hstored
  · cases h

end ClassFile

end FreshLocal
