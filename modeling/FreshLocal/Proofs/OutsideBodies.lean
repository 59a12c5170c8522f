import FreshLocal.Proofs.Fidelity
import FreshLocal.Proofs.DraftRequests

/-!
# Outside of the bodies nothing changes

A class is taken apart into events, sent through the injection and built again.
What is not part of a body comes out as it went in: the version, the flags, the
class and its superclass, the interfaces, the fields and the attributes. The pool
keeps every constant at its index and may have more behind them. A method keeps
its flags, its name, its descriptor and its attributes, but of the attributes
that hold a body the first is replaced, and the new one stands in front.

* `Method.SameOutside`, `ClassFile.SameOutside`: the same outside of bodies.
* `ClassBuilder.Builds.sameOutside`: the methods that are built.
* `withFreshLocals_builds`: what is built if the bytes of a class come out.
* `withFreshLocals_sameOutside`: **the class that comes out**.
-/

namespace FreshLocal

/-- **A method is the same outside of its body.** Of its attributes the first that holds a body is
replaced by one in front of the others. -/
structure Method.SameOutside (pool pool' : ConstantPool) (m m' : Method) : Prop where
  flags : m'.flags = m.flags
  name : m'.name = m.name
  descriptor : m'.descriptor = m.descriptor
  attributes :
    ((∀ a ∈ m.attributes, ¬ a.HoldsBody pool) ∧ m'.attributes = m.attributes) ∨
      ∃ front code behind new, m.attributes = front ++ code :: behind ∧
        (∀ a ∈ front, ¬ a.HoldsBody pool) ∧ code.HoldsBody pool ∧ new.HoldsBody pool' ∧
        m'.attributes = new :: (front ++ behind)

/-- **A class is the same outside of the bodies of its methods.** -/
structure ClassFile.SameOutside (c c' : ClassFile) : Prop where
  version : c'.version = c.version
  flags : c'.flags = c.flags
  thisClass : c'.thisClass = c.thisClass
  superClass : c'.superClass = c.superClass
  interfaces : c'.interfaces = c.interfaces
  fields : c'.fields = c.fields
  attributes : c'.attributes = c.attributes
  pool : ∀ index constant, c.pool.lookup index = .ok constant →
    c'.pool.lookup index = .ok constant
  methods : List.Forall₂ (Method.SameOutside c.pool c'.pool) c.methods.toList c'.methods.toList

variable {pool pool' pool'' : ConstantPool} {m m' : Method}

namespace Method

theorem splitCodeOnto_none {as done rest : List Attribute}
    (h : splitCodeOnto pool as done = .ok (none, rest)) :
    rest = done.reverse ++ as ∧ ∀ a ∈ as, ¬ a.HoldsBody pool := by
  induction as generalizing done with
  | nil =>
    cases h
    exact ⟨by simp, fun a ha => by cases ha⟩
  | cons a as ih =>
    obtain ⟨name, hname, h⟩ := Except.bind_eq_ok.1 h
    by_cases hcode : name = CodeAttribute.name
    · rw [if_pos hcode] at h
      cases h
    · rw [if_neg hcode] at h
      obtain ⟨hrest, hall⟩ := ih h
      refine ⟨by simp [hrest], List.forall_mem_cons.2 ⟨fun hbody => ?_, hall⟩⟩
      exact hcode (Except.ok.inj (hname.symm.trans hbody))

theorem splitCodeOnto_some {as done rest : List Attribute} {code : Attribute}
    (h : splitCodeOnto pool as done = .ok (some code, rest)) :
    ∃ front behind, as = front ++ code :: behind ∧ rest = done.reverse ++ (front ++ behind) ∧
      (∀ a ∈ front, ¬ a.HoldsBody pool) ∧ code.HoldsBody pool := by
  induction as generalizing done with
  | nil => cases h
  | cons a as ih =>
    obtain ⟨name, hname, h⟩ := Except.bind_eq_ok.1 h
    by_cases hcode : name = CodeAttribute.name
    · rw [if_pos hcode] at h
      cases h
      exact ⟨[], as, rfl, rfl, fun a ha => (by cases ha), hname.trans (by rw [hcode])⟩
    · rw [if_neg hcode] at h
      obtain ⟨front, behind, rfl, hrest, hfront, hbody⟩ := ih h
      refine ⟨a :: front, behind, rfl, by simp [hrest], ?_, hbody⟩
      exact List.forall_mem_cons.2
        ⟨fun hbody => hcode (Except.ok.inj (hname.symm.trans hbody)), hfront⟩

theorem SameOutside.grows (h : m.SameOutside pool pool' m') (hgrows : pool'.Grows pool'') :
    m.SameOutside pool pool'' m' := by
  refine ⟨h.flags, h.name, h.descriptor, h.attributes.imp_right ?_⟩
  rintro ⟨front, code, behind, new, hattributes, hfront, hcode, hnew, hattributes'⟩
  exact ⟨front, code, behind, new, hattributes, hfront, hcode, hgrows.utf8 hnew, hattributes'⟩

/-- Only the attribute that is new may be too long. -/
theorem SameOutside.fits (h : m.SameOutside pool pool' m') (hm : m.Fits) :
    m'.attributes.length ≤ 65535 ∧ ∀ a ∈ m'.attributes, a.Fits ∨ a.HoldsBody pool' := by
  obtain ⟨hcount, hfits⟩ := hm
  obtain ⟨-, hattributes⟩ | ⟨front, code, behind, new, hattributes, -, -, hnew, hattributes'⟩ :=
    h.attributes
  · rw [hattributes]
    exact ⟨hcount, fun a ha => .inl (hfits a ha)⟩
  · rw [hattributes] at hcount hfits
    rw [hattributes']
    refine ⟨?_, List.forall_mem_cons.2 ⟨.inr hnew, fun a ha => .inl (hfits a ?_)⟩⟩
    · simp only [List.length_append, List.length_cons] at hcount ⊢
      omega
    · obtain hfront | hbehind := List.mem_append.1 ha
      · exact List.mem_append_left _ hfront
      · exact List.mem_append_right _ (List.mem_cons_of_mem _ hbehind)

end Method

namespace ClassBuilder

open BodyEvent

variable {d : Draft} {events : List BodyEvent}

/-- **The body of a method is stored** in an attribute in front of the others. -/
theorem complete_eq_ok (hd : d.Holds events) (hall : StorableAll pool events)
    (hpool : pool'.Stored)
    (h : (complete m (some d)).run pool' = .ok m' pool'') :
    pool'.Grows pool'' ∧ pool''.Stored ∧ ∃ c p index, d.assemble.run pool' = .ok c p ∧
      p.Stored ∧ p.Grows pool'' ∧ (ConstantPool.textIndex CodeAttribute.name).run p =
        .ok index pool'' ∧ pool''.utf8 index = .ok CodeAttribute.name ∧
      m' = { m with attributes := ⟨index, c.write⟩ :: m.attributes } := by
  obtain ⟨c, pool₁, index, hc, hindex, rfl⟩ := complete_cases h
  have hframes : ∀ f, .frame f ∈ events → f.ShortNames := by
    intro f hf
    obtain ⟨k, hk⟩ := hall.storable hf
    exact hk.2.1
  obtain ⟨hgrows₁, hpool₁⟩ := Draft.extends_assemble hd hframes hpool hc
  obtain ⟨hgrows₂, hpool₂, hutf8⟩ :=
    ConstantPool.textIndex_eq_ok hpool₁ CodeAttribute.shortText_name hindex
  exact ⟨hgrows₁.trans hgrows₂, hpool₂, c, pool₁, index, hc, hpool₁, hgrows₂, hindex, hutf8, rfl⟩

/-- **A method that is built** is the same outside of its body. -/
theorem sameOutside_of_complete {x : SentMethod} {draft : Option Draft} (hx : m.Writable pool x)
    (hdraft : Drafted x.2 draft) (hpool : pool'.Stored)
    (h : (complete (ofMethodDeclaration x.1) draft).run pool' = .ok m' pool'') :
    pool'.Grows pool'' ∧ pool''.Stored ∧ m.SameOutside pool pool'' m' := by
  obtain ⟨rfl, -, hsplit⟩ | ⟨d, code, rfl, hd, hsplit, hall⟩ := hdraft.cases hx
  · obtain ⟨hflags, hname, hdescriptor, hcode, -⟩ := Method.split_eq_ok hsplit
    obtain ⟨hattributes, hbody⟩ := Method.splitCodeOnto_none hcode
    obtain ⟨rfl, rfl⟩ := PoolM.pure_eq_ok.1 h
    exact ⟨.refl _, hpool, hflags, hname, hdescriptor, .inl ⟨hbody, hattributes⟩⟩
  · obtain ⟨hflags, hname, hdescriptor, hcode, -⟩ := Method.split_eq_ok hsplit
    obtain ⟨front, after, hattributes, hrest, hfront, hbody⟩ := Method.splitCodeOnto_some hcode
    obtain ⟨hgrows', hpool', c, _, index, -, -, -, -, hnew, rfl⟩ :=
      complete_eq_ok hd hall hpool h
    refine ⟨hgrows', hpool', hflags, hname, hdescriptor, .inr ?_⟩
    refine ⟨front, code, after, ⟨index, c.write⟩, hattributes, hfront, hbody, hnew, ?_⟩
    show _ :: x.1.attributes = _ :: (front ++ after)
    rw [hrest]
    rfl

/-- **All methods that are built** are the same outside of their bodies. -/
theorem Builds.sameOutside {p : ConstantPool} {ms ms' : List Method} {xs : List SentMethod}
    (h : Builds pool xs ms' pool') (hx : List.Forall₂ (Method.Writable p) ms xs)
    (hpool : pool.Stored) :
    pool.Grows pool' ∧ pool'.Stored ∧ List.Forall₂ (Method.SameOutside p pool') ms ms' := by
  induction h generalizing ms with
  | nil pool =>
    cases hx
    exact ⟨.refl _, hpool, .nil⟩
  | cons hdraft hm' _ ih =>
    obtain _ | ⟨hfirst, hx⟩ := hx
    obtain ⟨hgrows, hpool₂, hsame⟩ := sameOutside_of_complete hfirst hdraft hpool hm'
    obtain ⟨hgrows', hstored, hrest⟩ := ih hx hpool₂
    exact ⟨hgrows.trans hgrows', hstored, .cons (hsame.grows hgrows') hrest⟩

end ClassBuilder

/-- **A class that is the same outside of the bodies** can be stored, if the bodies are not too
long. -/
theorem ClassFile.SameOutside.stored {c c' : ClassFile} (h : c.SameOutside c') (hc : c.Stored)
    (hpool : c'.pool.Stored)
    (hcode : ∀ m ∈ c'.methods, ∀ a ∈ m.attributes, a.HoldsBody c'.pool →
      a.body.length < 2 ^ 32) : c'.Stored := by
  have hmethod : ∀ m' ∈ c'.methods.toList, m'.Fits := by
    intro m' hm'
    obtain ⟨m, hm, hmm'⟩ := exists_of_mem_right h.methods hm'
    obtain ⟨hcount, hfits⟩ := hmm'.fits (hc.methods.2 m hm)
    refine ⟨hcount, fun a ha => ?_⟩
    obtain hfits | hbody := hfits a ha
    · exact hfits
    · exact hcode m' (by simpa using hm') a ha hbody
  have hcount : c'.methods.toList.length ≤ 65535 := h.methods.length_eq ▸ hc.methods.1
  refine ⟨hpool, ?_, ?_, ⟨hcount, hmethod⟩, ?_⟩
  · rw [h.interfaces]; exact hc.interfaces
  · rw [h.fields]; exact hc.fields
  · rw [h.attributes]; exact hc.attributes

/-- **What is built** if the bytes of a class come out: the class as it was read, with the methods
that the injection sent. -/
theorem withFreshLocals_builds {options : Options} {bytes bytes' : Bytes}
    (h : withFreshLocals options bytes = .ok bytes') :
    ∃ file d xs xs' pool ms', ClassFile.read bytes = .ok file ∧ file.declaration = .ok d ∧
      List.Forall₂ (Method.Reads file.pool) file.methods.toList xs ∧
      List.Forall₂ (ClassInjection.Injected options d.name) xs xs' ∧
      ClassBuilder.Builds file.pool xs' ms' pool ∧ pool.Stored ∧
      file.SameOutside { file with pool, methods := ms'.toArray } ∧
      bytes' = ClassFile.write { file with pool, methods := ms'.toArray } := by
  obtain ⟨file, i, sent, b, hread, hfault, hrun, hfeed, hfinish⟩ := withFreshLocals_eq_ok h
  have hstored := ClassFile.stored_of_read hread
  obtain ⟨d, xs, hdeclaration, hreads, hevents⟩ := ClassFile.script_eq_ok hfault
  obtain ⟨hname, hd⟩ := ClassFile.declaration_eq_ok hdeclaration
  rw [hevents] at hrun
  obtain ⟨xs', hinjected, rfl⟩ := ClassInjection.run_class hrun
  have hwritable := writable_of_reads hstored.pool (hstored.pool.shortClassName hname) hreads
    hinjected
  have hstarts : ∀ x ∈ xs', ClassBuilder.StartsOnce x.2 := fun x hx =>
    have ⟨_, _, hwritable⟩ := exists_of_mem_right hwritable hx
    ClassBuilder.startsOnce_of_writable hwritable
  obtain ⟨built, hbuilt, rfl⟩ := ClassBuilder.finish_eq_ok hfinish
  obtain ⟨pool, ms', hbuilds, hfile⟩ := ClassBuilder.feed_classEvents hstarts hfeed
  have hfile' : built = { file with pool, methods := ms'.toArray } := by
    rw [hd] at hfile
    exact Option.some.inj (hbuilt.symm.trans hfile)
  have hpool : d.pool = file.pool := by rw [hd]
  rw [hpool] at hbuilds
  obtain ⟨hgrows, hpool', hsame⟩ := hbuilds.sameOutside hwritable hstored.pool
  exact ⟨file, d, xs, xs', pool, ms', hread, hdeclaration, hreads, hinjected, hbuilds, hpool',
    ⟨rfl, rfl, rfl, rfl, rfl, rfl, rfl, fun _ _ => hgrows.lookup, hsame⟩, by rw [hfile']⟩

/-- **Outside of the bodies nothing changes.** Let the bytes of a class come out. Then they are the
bytes of a class that is the same outside of the bodies of its methods as the one that went in. This
class is what is read from them, unless an attribute that holds a body is longer than the 32 bits of
its length can say. -/
theorem withFreshLocals_sameOutside {options : Options} {bytes bytes' : Bytes}
    (h : withFreshLocals options bytes = .ok bytes') :
    ∃ file built, ClassFile.read bytes = .ok file ∧ file.SameOutside built ∧
      bytes' = built.write ∧
      (ClassFile.read bytes' = .ok built ↔
        ∀ m ∈ built.methods, ∀ a ∈ m.attributes, a.HoldsBody built.pool →
          a.body.length < 2 ^ 32) := by
  obtain ⟨file, d, xs, xs', pool, ms', hread, -, -, -, -, hpool, houtside, rfl⟩ :=
    withFreshLocals_builds h
  refine ⟨file, _, hread, houtside, rfl, fun hread' m hm a ha _ => ?_, fun hcode => ?_⟩
  · exact ((ClassFile.stored_of_read hread').methods.2 m (Array.mem_toList_iff.2 hm)).2 a ha
  · exact ClassFile.read_write (houtside.stored (ClassFile.stored_of_read hread) hpool hcode)

/-- The class keeps its superclass, interface and field, its attributes, and those of its methods
but for two bodies. It is read back. -/
theorem withFreshLocals_sameOutside_varied : ∃ built,
    withFreshLocals .standard variedClass.write = .ok variedBuilt.write ∧
      variedClass.SameOutside built ∧ ClassFile.read variedBuilt.write = .ok built := by
  obtain ⟨file, built, hread, hsame, hbytes, hback⟩ :=
    withFreshLocals_sameOutside withFreshLocals_varied
  obtain rfl := Except.ok.inj ((ClassFile.read_write stored_variedClass).symm.trans hread)
  refine ⟨built, withFreshLocals_varied, hsame, hback.2 fun m hm a ha _ => ?_⟩
  have hle := ClassFile.length_body_le hm ha
  rw [← hbytes] at hle
  exact hle.trans_lt length_variedBuilt

end FreshLocal
