import FreshLocal.Proofs.WorkInvariants

/-!
# Faults in the name of a method

A fault of the body of a method is to be shown in the name of the method, once.
The reader puts its own faults in this name, and the injection into the class
those of the injection into the body; what comes through both keeps the name that
it has. But a body is stored at the end of its method, and there neither of them
does: a fault of the layout, of a jump, of a table or of the pool comes out as it
is, and the method is not named.

**Argument.** The work is that on one method after the other
(`withFreshLocals_eq`). What stops it is plain, or it is the pool that is full
(`ClassFile.withFreshLocals_error`), and neither names a method. So a name is put
in front once or not at all, and which of the two it is `Obstacle.shown` says.

* `Fault.NamesMethod`: a fault in the name of a method.
* `Method.HasTitle`: the name of a method and its descriptor.
* `Method.storedSafely_unnamed`: the storing of a method names none.
* `withFreshLocals_titles`: **which faults name their method**.
-/

namespace FreshLocal

/-- Is the fault one in the name of a method? -/
def Fault.NamesMethod : Fault → Prop
  | inMethod _ _ => True
  | _ => False

theorem Fault.IsPlain.not_namesMethod {fault : Fault} (h : fault.IsPlain) :
    ¬ fault.NamesMethod := by
  cases fault with
  | inMethod method inner => exact h.elim
  | _ => exact id

variable {options : Options} {name : BinaryName} {pool : ConstantPool}

namespace Method

/-- The name of a method with its descriptor behind it, both as they stand in the pool. -/
def HasTitle (pool : ConstantPool) (m : Method) (title : String) : Prop :=
  ∃ name descriptor, pool.utf8 m.name = .ok name ∧ pool.utf8 m.descriptor = .ok descriptor ∧
    title = name ++ descriptor

/-- **A declaration that was read has the title of its method.** -/
theorem hasTitle_of_split {m : Method} {d : MethodDeclaration} {body : Option Attribute}
    (h : m.split pool = .ok (d, body)) : m.HasTitle pool d.title := by
  obtain ⟨-, -, -, -, hdescriptor⟩ := split_eq_ok h
  obtain ⟨text, htext, h⟩ := Except.bind_eq_ok.1 h
  obtain ⟨_, -, h⟩ := Except.bind_eq_ok.1 h
  obtain ⟨_, -, h⟩ := Except.bind_eq_ok.1 h
  obtain ⟨name, hname, h⟩ := Except.bind_eq_ok.1 h
  obtain ⟨_, -, h⟩ := Except.bind_eq_ok.1 h
  cases h
  have hsame := UnqualifiedName.ofText_eq_ok (Except.mapError_eq_ok.1 hname)
  refine ⟨name.text, _, ?_, hdescriptor, rfl⟩
  rw [hsame]
  exact Except.mapError_eq_ok.1 htext

/-- **A method that cannot be stored** is refused in no name. -/
theorem storedSafely_unnamed (m : Method) :
    m.StoredSafely options name pool (fun _ => True) fun fault => ¬ fault.NamesMethod := by
  have hrequest : ∀ r : PoolRequest,
      PoolM.Safe (fun _ => True) (fun fault => ¬ fault.NamesMethod) r.index := by
    exact fun r => r.safe_index (fun _ => id) (ConstantPool.addKeeps_true _)
      fun n => ConstantPool.addKeeps_true _
  intro d code body _ _
  exact ClassBuilder.safe_complete (fun _ h => h.not_namesMethod) fun _ _ =>
    ⟨hrequest (.text CodeAttribute.name), fun r _ => hrequest r⟩

end Method

/-- **Which faults name their method.** Let no class come out. Either something outside of the
bodies stops the work, and the fault names no method; or it stops at the body of a method of the
class. Then the fault that stops it names no method, and it is shown in the name of this method,
which is its name with its descriptor behind it, unless the body was read and carried over and
cannot be stored: then it is shown as it is. -/
theorem withFreshLocals_titles {bytes : Bytes} {fault : Fault}
    (h : withFreshLocals options bytes = .error fault) :
    (¬ fault.NamesMethod ∧ (ClassFile.read bytes = .error fault ∨
      ∃ file, ClassFile.read bytes = .ok file ∧
        file.withFreshLocals options = .error (.outside fault))) ∨
    ∃ file d work inner, ClassFile.read bytes = .ok file ∧
      file.withFreshLocals options = .error (.body d work inner) ∧
      (∃ m ∈ file.methods, ∃ code, m.split file.pool = .ok (d, some code) ∧
        m.HasTitle file.pool d.title) ∧ ¬ inner.NamesMethod ∧
      fault = if work = .storing then inner else .inMethod d.title inner := by
  rw [withFreshLocals_eq] at h
  cases hread : ClassFile.read bytes with
  | error cause =>
    rw [hread] at h
    cases h
    have hnot : OnlyFaults (fun fault => ¬ fault.NamesMethod) (ClassFile.read bytes) :=
      ClassFile.onlyFaults_read (fun _ => id) (fun _ => id) bytes
    exact .inl ⟨hnot fault hread, .inl rfl⟩
  | ok file =>
    rw [hread] at h
    change ((file.withFreshLocals options).mapError Obstacle.shown).map ClassFile.write = _ at h
    cases hwork : file.withFreshLocals options with
    | ok built =>
      rw [hwork] at h
      cases h
    | error obstacle =>
      rw [hwork] at h
      obtain rfl : obstacle.shown = fault := Except.error.inj h
      have hof := ClassFile.withFreshLocals_error (I := fun _ => True)
        (fun _ h => h.not_namesMethod) (fun _ _ m _ => m.storedSafely_unnamed) trivial
        obstacle hwork
      cases obstacle with
      | outside cause => exact .inl ⟨hof, .inr ⟨file, rfl, hwork⟩⟩
      | body d work inner =>
        obtain ⟨hinner, m, hm, code, hsplit⟩ := hof
        refine .inr ⟨file, d, work, inner, rfl, hwork, ?_, hinner, ?_⟩
        · exact ⟨m, Array.mem_toList_iff.1 hm, code, hsplit, Method.hasTitle_of_split hsplit⟩
        · cases work <;> rfl

/-- The small class, with a body that ends too early. -/
def truncatedClass : ClassFile :=
  { sampleClass with methods := #[⟨.ofBits 8, 3, 4, [⟨5, [0, 1]⟩]⟩] }

theorem stored_truncatedClass : truncatedClass.Stored := by
  refine ⟨stored_sampleClass.pool, stored_sampleClass.interfaces, stored_sampleClass.fields,
    ⟨by decide, fun m hm => ?_⟩, stored_sampleClass.attributes⟩
  obtain rfl := List.mem_singleton.1 hm
  refine ⟨by decide, fun a ha => ?_⟩
  obtain rfl := List.mem_singleton.1 ha
  unfold Attribute.Fits
  decide

/-- The fault of this body is shown in the name of its method. -/
theorem withFreshLocals_titles_truncated : ∃ file d work inner,
    withFreshLocals .standard truncatedClass.write =
        .error (.inMethod "count(I)V" (.decode .truncated)) ∧
      ClassFile.read truncatedClass.write = .ok file ∧
      file.withFreshLocals .standard = .error (.body d work inner) ∧
      (∃ m ∈ file.methods, m.HasTitle file.pool d.title) ∧ ¬ inner.NamesMethod ∧
      Fault.inMethod "count(I)V" (.decode .truncated) =
        if work = .storing then inner else .inMethod d.title inner := by
  have hwork : withFreshLocals .standard truncatedClass.write =
      .error (.inMethod "count(I)V" (.decode .truncated)) := by
    rw [withFreshLocals_eq, ClassFile.read_write stored_truncatedClass]
    rfl
  obtain ⟨hnot, -⟩ | ⟨file, d, work, inner, hread, hobstacle, hm, hinner, hshown⟩ :=
    withFreshLocals_titles hwork
  · exact absurd trivial hnot
  · obtain ⟨m, hm, code, -, htitle⟩ := hm
    exact ⟨file, d, work, inner, hwork, hread, hobstacle, ⟨m, hm, htitle⟩, hinner, hshown⟩

end FreshLocal
