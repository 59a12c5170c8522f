import FreshLocal.Proofs.BodyContent
import FreshLocal.Proofs.Prologue
import FreshLocal.Proofs.ReadAgain

/-!
# A class that is built again

A class can be sent from the reader to the builder as it is. What comes out is in
a normal form: the attribute with a body stands in front, tables of one kind are
one table, instructions, jumps, frames and texts have their shortest forms, and
the names that the tables need are in the pool. A class in this form comes out as
it went in.

**Argument.** The body that is read from what was stored is the one that was laid
out. Laid out again it is the same, and so is its code. The pool has all the
names and classes that it needs, each found where it was put. So the attribute is
the same again, and the pool does not change. If the bytes of a body were too
long for their length, the reader would get a front of them, and refuse it.

* `normalized`: the bytes of a class that is built again.
* `Method.Rebuilt`: a method that was built from one that was read.
* `Method.Rebuilt.settled`: **such a method** is built again as it is.
* `normalized_normalized`: **so is a class**.
-/

namespace FreshLocal

/-- The bytes of a class that is read and built again as it is. -/
def normalized (bytes : Bytes) : Except Fault Bytes := do
  let file ← ClassFile.read bytes
  match file.script.deliver ClassBuilder.receive .empty with
  | (_, some fault) => throw fault
  | (builder, none) => builder.finish

variable {pool pool₁ pool₂ P P' : ConstantPool} {m m' : Method} {x y : SentMethod}
  {draft : Option Draft}

namespace Method

/-- **What was read of a method** can be stored. -/
theorem Reads.writable_self (hpool : pool.Stored) (h : m.Reads pool x) : m.Writable pool x := by
  obtain ⟨code, hsplit, hcode⟩ := h
  cases code with
  | none => exact .inl ⟨hsplit, hcode⟩
  | some code =>
    obtain ⟨b, hread, hevents⟩ := hcode
    have hsent : x.2 = b.events.1 := by rw [hevents]
    have hall := (Body.readable_of_read hpool hread).storableAll (by rw [hevents])
    obtain ⟨rest, hrest, hstart⟩ := b.events_eq
    rw [← hsent] at hall hrest
    exact .inr ⟨code, _, _, rest, hsplit, hrest, hstart, hall⟩

/-- What a method that was read declares. -/
theorem Reads.declaration (h : m.Reads pool x) :
    x.1.flags = m.flags ∧ x.1.nameIndex = m.name ∧ x.1.descriptorIndex = m.descriptor := by
  obtain ⟨code, hsplit, -⟩ := h
  obtain ⟨hflags, hname, hdescriptor, -, -⟩ := split_eq_ok hsplit
  exact ⟨hflags, hname, hdescriptor⟩

/-- A body that was read and stored, under a name that the pool has in the end. -/
structure RebuiltBody (P : ConstantPool) (before : Body) (d : Draft) (c : CodeAttribute)
    (index : PoolIndex) (pool pool' : ConstantPool) : Prop where
  found : ∃ pool₀ stored, pool₀.Stored ∧ stored.length < 2 ^ 32 ∧
    Body.read pool₀ stored = .ok before ∧ pool₀.Grows pool
  faultless : before.events.2 = none
  holds : d.Holds before.events.1
  poolStored : pool.Stored
  assembled : d.assemble.run pool = .ok c pool'
  named : ∃ pool'', (ConstantPool.textIndex CodeAttribute.name).run pool' = .ok index pool'' ∧
    pool''.Grows P

/-- **A method that was built from one that was read.** -/
def Rebuilt (P : ConstantPool) (m : Method) : Prop :=
  ((∀ a ∈ m.attributes, a.Fits) ∧ ∀ a ∈ m.attributes, ¬ a.HoldsBody P) ∨
    ∃ before d c index pool pool' rest, RebuiltBody P before d c index pool pool' ∧
      m.attributes = ⟨index, c.write⟩ :: rest ∧ ∀ a ∈ rest, a.Fits

/-- **A method that is built** as it was read. -/
theorem rebuilt_of_complete (hm : m.Fits) (hpool : pool.Stored) (hreads : m.Reads pool x)
    (hdraft : ClassBuilder.Drafted x.2 draft) (hgrows : pool.Grows pool₁) (hpool₁ : pool₁.Stored)
    (h : (ClassBuilder.complete (ClassBuilder.ofMethodDeclaration x.1) draft).run pool₁ =
      .ok m' pool₂) (hP : pool₂.Grows P) : m'.Rebuilt P := by
  have hwritable := hreads.writable_self hpool
  obtain ⟨code, hsplit, hcode⟩ := hreads
  obtain ⟨-, -, -, hattributes, -⟩ := split_eq_ok hsplit
  obtain ⟨rfl, -, hsplit'⟩ | ⟨d, code', rfl, hd, hsplit', hall⟩ := hdraft.cases hwritable
  · obtain rfl : code = none := by
      rw [hsplit] at hsplit'
      cases hsplit'
      rfl
    obtain ⟨rfl, rfl⟩ := PoolM.pure_eq_ok.1 h
    obtain ⟨hsame, -⟩ := splitCodeOnto_none hattributes
    obtain ⟨-, hbody⟩ := splitCodeOnto_none (splitCodeOnto_grows (hgrows.trans hP) hattributes)
    have hsame' : (ClassBuilder.ofMethodDeclaration x.1).attributes = m.attributes := hsame
    exact .inl ⟨hsame' ▸ hm.2, hsame' ▸ hbody⟩
  · obtain rfl : code = some code' := by
      rw [hsplit] at hsplit'
      cases hsplit'
      rfl
    obtain ⟨before, hbefore, hevents⟩ := hcode
    obtain ⟨-, -, c, p, index, hc, -, -, hindex, -, rfl⟩ :=
      ClassBuilder.complete_eq_ok hd (hall.grows hgrows) hpool₁ h
    obtain ⟨front, behind, hfront, hrest, -, -⟩ := splitCodeOnto_some hattributes
    have hsent : x.2 = before.events.1 := by rw [hevents]
    have hfits : code'.Fits := hm.2 code' (by rw [hfront]; simp)
    refine .inr ⟨before, d, c, index, pool₁, p, x.1.attributes, ?_, rfl, fun a ha => ?_⟩
    · exact ⟨⟨pool, code'.body, hpool, hfits, hbefore, hgrows⟩, by rw [hevents], hsent ▸ hd,
        hpool₁, hc, pool₂, hindex, hP⟩
    · -- what stands behind the body was read with it
      rw [hrest, List.reverse_nil, List.nil_append] at ha
      refine hm.2 a ?_
      rw [hfront]
      obtain ha | ha := List.mem_append.1 ha
      · exact List.mem_append_left _ ha
      · exact List.mem_append_right _ (List.mem_cons_of_mem _ ha)

namespace RebuiltBody

variable {before : Body} {d : Draft} {c : CodeAttribute} {index : PoolIndex}
  {rest more : List Attribute}

/-- The name is found again. -/
theorem textIndex (h : RebuiltBody P before d c index pool₁ pool₂) :
    pool₂.Grows P ∧ (ConstantPool.textIndex CodeAttribute.name).run P = .ok index P := by
  obtain ⟨pool₃, hindex, hgrows⟩ := h.named
  obtain ⟨hgrows', hagain⟩ := PoolM.settles_textIndex _ hindex
  exact ⟨hgrows'.trans hgrows, hagain P hgrows⟩

/-- The attribute in front holds the body, and this is what is read of it. -/
theorem reads_front (h : RebuiltBody P before d c index pool₁ pool₂) (hP : P.Stored)
    {body : Bytes} (hattributes : m.attributes = ⟨index, body⟩ :: more) (hreads : m.Reads P y) :
    y.1.attributes = more ∧ ∃ after, Body.read P body = .ok after ∧ after.events = (y.2, none) := by
  obtain ⟨code, hsplit, hcode⟩ := hreads
  obtain ⟨-, -, -, hsplitCode, -⟩ := split_eq_ok hsplit
  obtain ⟨-, -, hutf8⟩ := ConstantPool.textIndex_eq_ok hP
    CodeAttribute.shortText_name h.textIndex.2
  rw [hattributes, splitCode, splitCodeOnto] at hsplitCode
  obtain ⟨name, hname, hsplitCode⟩ := Except.bind_eq_ok.1 hsplitCode
  obtain rfl := Except.ok.inj (hname.symm.trans hutf8)
  rw [if_pos rfl] at hsplitCode
  cases hsplitCode
  obtain ⟨after, hafter, hevents⟩ := hcode
  exact ⟨rfl, after, hafter, hevents⟩

/-- **A body that was read and stored** is stored again as it is, and the pool has all that it
needs. -/
theorem assemble_again (h : RebuiltBody P before d c index pool₁ pool₂) (hP : P.Stored)
    {after : Body} (hafter : Body.read P c.write = .ok after) (hnone : after.events.2 = none)
    {d' : Draft} {c' : CodeAttribute} (hd' : d'.Holds after.events.1)
    (h' : d'.assemble.run P = .ok c' P') : c' = c ∧ P' = P := by
  obtain ⟨pool₀, stored, hpool₀, hstored, hbefore, hgrows₀⟩ := h.found
  have hall₀ := (Body.readable_of_read hpool₀ hbefore).storableAll h.faultless
  have hall := (Body.readable_of_read hP hafter).storableAll hnone
  -- what was read is the body at the offsets of a layout
  obtain ⟨-, layout, hlayout, hordered, hcode, hholds, hsame⟩ :=
    Draft.read_again (n := c.write.length) hbefore h.faultless hstored hpool₀ h.holds h.assembled
      hgrows₀ h.poolStored h.textIndex.1 hP (by rwa [List.take_length])
  obtain ⟨layout', hlayout', hcode', hholds'⟩ := Draft.holds_of_assemble hd' h'
  obtain ⟨hordered', -⟩ := Draft.disassemble_of_assemble hd' hall h' hlayout'
  have hlimits := Draft.limits_eq h.holds hall₀
  have hlimits' : (after.events.1.filterMap BodyEvent.limits?).getLast? =
      some (d.maxStack, d.maxLocals) := by
    obtain ⟨attached, -, -, hevents⟩ := Body.events_eq_of_none hnone
    rw [hevents, Body.limits_events, hsame]
    rfl
  obtain ⟨hmaxStack, hmaxLocals⟩ : d'.maxStack = d.maxStack ∧ d'.maxLocals = d.maxLocals := by
    have heq := (Draft.limits_eq hd' hall).symm.trans hlimits'
    exact Prod.mk.inj (Option.some.inj heq)
  -- the second layout is that of a body with the same content
  obtain ⟨hbody, hcodeSame⟩ := Layout.body_again hlayout hall₀ hordered hlimits hsame.symm hlayout'
    hall hordered' hlimits'
  rw [hmaxStack, hmaxLocals, hbody] at hholds'
  -- and in the last pool nothing new is needed for its tables
  obtain ⟨-, hagain⟩ := after.settles_storeAttributes hholds.attributes
  have hstored' := (hagain P h.textIndex.1).symm.trans hholds'.attributes
  obtain ⟨hattributes, hpool'⟩ := EStateM.Result.ok.inj hstored'
  refine ⟨?_, hpool'.symm⟩
  obtain ⟨maxStack, maxLocals, code, handlers, attributes⟩ := c
  obtain ⟨maxStack', maxLocals', code', handlers', attributes'⟩ := c'
  obtain rfl : maxStack' = maxStack := hholds'.maxStack.trans hholds.maxStack.symm
  obtain rfl : maxLocals' = maxLocals := hholds'.maxLocals.trans hholds.maxLocals.symm
  obtain rfl : code' = code := hcode'.trans (hcodeSame.trans hcode.symm)
  obtain rfl : handlers' = handlers := hholds'.handlers.trans hholds.handlers.symm
  obtain rfl : attributes = attributes' := hattributes
  rfl

end RebuiltBody

/-- **The body of a method** that was built is read in full. -/
theorem Rebuilt.not_cut (h : m.Rebuilt P) (hP : P.Stored)
    (hcut : Attribute.CutIn m.attributes m'.attributes) : ¬ m'.Reads P y := by
  intro hreads
  obtain ⟨front, a, behind, more, hm, hlong, hm'⟩ := hcut
  have hmem : a ∈ m.attributes := by rw [hm]; simp
  obtain ⟨hfits, -⟩ | ⟨before, d, c, index, p, p', rest, hbody, hattributes, hfits⟩ := h
  · exact hlong (hfits a hmem)
  · rw [hattributes] at hm
    rcases front with _ | ⟨first, front⟩
    · obtain ⟨rfl, rfl⟩ := List.cons.inj hm
      obtain ⟨-, after, hafter, -⟩ := hbody.reads_front hP hm' hreads
      obtain ⟨pool₀, stored, hpool₀, hstored, hbefore, hgrows₀⟩ := hbody.found
      obtain ⟨hle, -⟩ := Draft.read_again hbefore hbody.faultless hstored hpool₀ hbody.holds
        hbody.assembled hgrows₀ hbody.poolStored hbody.textIndex.1 hP hafter
      refine hlong (hle.trans_lt ?_)
      exact Nat.mod_lt _ (by decide)
    · obtain ⟨-, rfl⟩ := List.cons.inj hm
      exact hlong (hfits a (by simp))

/-- **A method that was built** is built again as it is. -/
theorem Rebuilt.settled (h : m.Rebuilt P) (hP : P.Stored) (hreads : m.Reads P y)
    (hdraft : ClassBuilder.Drafted y.2 draft)
    (hcomplete : (ClassBuilder.complete (ClassBuilder.ofMethodDeclaration y.1) draft).run P =
      .ok m' P') : m' = m ∧ P' = P := by
  have hwritable := hreads.writable_self hP
  obtain ⟨hflags, hname, hdescriptor⟩ := hreads.declaration
  obtain ⟨-, hnone⟩ | ⟨before, d, c, index, p, p', rest, hbody, hattributes, -⟩ := h
  · obtain ⟨rfl, -, hsplit⟩ | ⟨d, code, rfl, -, hsplit, -⟩ := hdraft.cases hwritable
    · obtain ⟨-, -, -, hsplitCode, -⟩ := split_eq_ok hsplit
      obtain ⟨rfl, rfl⟩ := PoolM.pure_eq_ok.1 hcomplete
      obtain ⟨hsame, -⟩ := splitCodeOnto_none hsplitCode
      rw [ClassBuilder.ofMethodDeclaration, hflags, hname, hdescriptor, hsame]
      exact ⟨rfl, rfl⟩
    · -- the method has no body
      obtain ⟨-, -, -, hsplitCode, -⟩ := split_eq_ok hsplit
      obtain ⟨front, behind, hm, -, -, hholds⟩ := splitCodeOnto_some hsplitCode
      exact absurd hholds (hnone code (by rw [hm]; simp))
  · obtain ⟨hrest, after, hafter, hevents⟩ := hbody.reads_front hP hattributes hreads
    have hsent : y.2 = after.events.1 := by rw [hevents]
    have hnone : after.events.2 = none := by rw [hevents]
    obtain ⟨-, hempty, -⟩ | ⟨d', code, rfl, hd', -, hall⟩ := hdraft.cases hwritable
    · -- the events of a body start with its limits
      obtain ⟨events, hevents', -⟩ := after.events_eq
      rw [hsent, hevents'] at hempty
      cases hempty
    · rw [hsent] at hd' hall
      obtain ⟨-, -, c', p₁, index', hc', -, -, hindex, -, rfl⟩ :=
        ClassBuilder.complete_eq_ok hd' hall hP hcomplete
      obtain ⟨rfl, rfl⟩ := hbody.assemble_again hP hafter hnone hd' hc'
      obtain ⟨rfl, rfl⟩ := EStateM.Result.ok.inj (hbody.textIndex.2.symm.trans hindex)
      refine ⟨?_, rfl⟩
      obtain ⟨flags, name, descriptor, attributes⟩ := m
      obtain rfl : attributes = _ := hattributes
      rw [ClassBuilder.ofMethodDeclaration, hrest, hflags, hname, hdescriptor]

end Method

namespace ClassBuilder

/-- **All methods that are built** were read. -/
theorem Builds.rebuilt {ms ms' : List Method} {xs : List SentMethod}
    (h : Builds pool₁ xs ms' pool₂) (hpool : pool.Stored) (hm : ∀ m ∈ ms, m.Fits)
    (hreads : List.Forall₂ (Method.Reads pool) ms xs) (hgrows : pool.Grows pool₁)
    (hpool₁ : pool₁.Stored) (hP : pool₂.Grows P) : ∀ m ∈ ms', m.Rebuilt P := by
  induction h generalizing ms with
  | nil => exact fun m hm => absurd hm List.not_mem_nil
  | cons hdraft hm' hrest ih =>
    obtain _ | ⟨hfirst, hreads⟩ := hreads
    have hwritable := hfirst.writable_self hpool
    obtain ⟨hgrows₂, hpool₂, -⟩ := sameOutside_of_complete hwritable hdraft hpool₁ hm'
    obtain ⟨hgrows₃, -, -⟩ :=
      hrest.sameOutside (hreads.imp fun _ _ h => h.writable_self hpool) hpool₂
    refine List.forall_mem_cons.2 ⟨?_, ?_⟩
    · exact Method.rebuilt_of_complete (hm _ List.mem_cons_self) hpool hfirst hdraft hgrows hpool₁
        hm' (hgrows₃.trans hP)
    · exact ih (fun m hm' => hm m (List.mem_cons_of_mem _ hm')) hreads (hgrows.trans hgrows₂) hpool₂
        hP

/-- **Methods that were built** are built again as they are. -/
theorem Builds.settled {ms ms' : List Method} {ys : List SentMethod} (h : Builds P ys ms' P')
    (hP : P.Stored) (hms : ∀ m ∈ ms, m.Rebuilt P)
    (hreads : List.Forall₂ (Method.Reads P) ms ys) : ms' = ms ∧ P' = P := by
  induction h generalizing ms with
  | nil =>
    cases hreads
    exact ⟨rfl, rfl⟩
  | cons hdraft hm' _ ih =>
    obtain _ | ⟨hfirst, hreads⟩ := hreads
    obtain ⟨rfl, rfl⟩ := (hms _ List.mem_cons_self).settled hP hfirst hdraft hm'
    obtain ⟨rfl, rfl⟩ := ih hP (fun m hm => hms m (List.mem_cons_of_mem _ hm)) hreads
    exact ⟨rfl, rfl⟩

end ClassBuilder

/-! ## Classes -/

/-- **What the reader and the builder did** when a class was built again. -/
theorem normalized_eq_ok {bytes bytes' : Bytes} (h : normalized bytes = .ok bytes') :
    ∃ file xs pool ms, ClassFile.read bytes = .ok file ∧
      List.Forall₂ (Method.Reads file.pool) file.methods.toList xs ∧
      ClassBuilder.Builds file.pool xs ms pool ∧
      bytes' = ClassFile.write { file with pool, methods := ms.toArray } := by
  obtain ⟨file, hread, h⟩ := Except.bind_eq_ok.1 h
  split at h
  · cases h
  rename_i b hdeliver
  obtain ⟨hfault, hfeed⟩ := Script.deliver_eq_ok.1 hdeliver
  obtain ⟨d, xs, hdeclaration, hreads, hevents⟩ := ClassFile.script_eq_ok hfault
  obtain ⟨-, hd⟩ := ClassFile.declaration_eq_ok hdeclaration
  have hpool := (ClassFile.stored_of_read hread).pool
  have hstarts : ∀ x ∈ xs, ClassBuilder.StartsOnce x.2 := fun x hx =>
    have ⟨_, _, hx⟩ := exists_of_mem_right hreads hx
    ClassBuilder.startsOnce_of_writable (hx.writable_self hpool)
  rw [hevents] at hfeed
  obtain ⟨built, hbuilt, rfl⟩ := ClassBuilder.finish_eq_ok h
  obtain ⟨pool, ms, hbuilds, hfile⟩ := ClassBuilder.feed_classEvents hstarts hfeed
  obtain rfl := Option.some.inj (hbuilt.symm.trans hfile)
  rw [hd] at hbuilds ⊢
  exact ⟨file, xs, pool, ms, hread, hreads, hbuilds, rfl⟩

/-- **A class that was built again** is built again as it is. -/
theorem normalized_normalized {bytes bytes' bytes'' : Bytes} (h : normalized bytes = .ok bytes')
    (h' : normalized bytes' = .ok bytes'') : bytes'' = bytes' := by
  obtain ⟨file, xs, pool, ms, hread, hreads, hbuilds, rfl⟩ := normalized_eq_ok h
  obtain ⟨file', ys, pool', ms', hread', hreads', hbuilds', rfl⟩ := normalized_eq_ok h'
  have hstored := ClassFile.stored_of_read hread
  have hrebuilt := hbuilds.rebuilt hstored.pool hstored.methods.2 hreads (.refl _) hstored.pool
    (.refl _)
  obtain ⟨hgrows, hpool, hsame⟩ := hbuilds.sameOutside
    (hreads.imp fun _ _ h => h.writable_self hstored.pool) hstored.pool
  set built : ClassFile := { file with pool, methods := ms.toArray } with hbuilt
  have hcounts : built.methods.toList.length ≤ 65535 ∧
      ∀ m ∈ built.methods.toList, m.attributes.length ≤ 65535 := by
    refine ⟨hsame.length_eq ▸ hstored.methods.1, fun m' hm' => ?_⟩
    obtain ⟨m, hm, hmm'⟩ := exists_of_mem_right hsame hm'
    exact (hmm'.fits (hstored.methods.2 m hm)).1
  -- no body is too long, since it would not be read
  have hfits : ∀ m ∈ built.methods.toList, m.Fits := by
    have hcut := ClassFile.read_cut (c := built) hpool hstored.interfaces hstored.fields hcounts
      hread'
    refine hcut.resolve_right ?_
    rintro ⟨hpool', m, hm, m', hm', -, hcut⟩
    rw [hpool'] at hreads'
    obtain ⟨y, -, hy⟩ := exists_of_mem_right hreads'.flip hm'
    exact (hrebuilt m hm).not_cut hpool hcut hy
  -- so the class is read back, and its methods are built again as they are
  have hback : ClassFile.read built.write = .ok built :=
    ClassFile.read_write ⟨hpool, hstored.interfaces, hstored.fields, ⟨hcounts.1, hfits⟩,
      hstored.attributes⟩
  obtain rfl := Except.ok.inj (hback.symm.trans hread')
  obtain ⟨rfl, rfl⟩ := hbuilds'.settled hpool hrebuilt hreads'
  rfl

/-- What is sent of a method that drops its argument and returns. -/
def sampleEvents : List BodyEvent :=
  [.start 1 1, .operation (.plain (.load .int 0)),
    .operation (.plain (.nullary .pop)), .operation (.branch (.exit .returnVoid)),
    .limits 1 1]

/-- The same method with the load in its wide form. -/
def wideCode : CodeAttribute := ⟨1, 1, [0xc4, 0x15, 0x00, 0x00, 0x57, 0xb1], [], []⟩

/-- The class of the method. Its normal form is `sampleClass`. -/
def wideClass : ClassFile :=
  { sampleClass with methods := #[⟨.ofBits 8, 3, 4, [⟨5, wideCode.write⟩]⟩] }

theorem stored_wideClass : wideClass.Stored := by
  refine ⟨stored_sampleClass.pool, by decide, stored_sampleClass.fields,
    ⟨by decide, fun m hm => ?_⟩, stored_sampleClass.attributes⟩
  obtain rfl := List.mem_singleton.1 hm
  refine ⟨by decide, fun a ha => ?_⟩
  obtain rfl := List.mem_singleton.1 ha
  unfold Attribute.Fits
  decide

theorem isNullaryOpcode_pop : IsNullaryOpcode 0x57 := by decide

/-- The body of the method. -/
def wideBody : Body :=
  { sampleBody with
    length := 6
    operations := [(0, .plain (.load .int 0)), (4, .plain (.nullary ⟨0x57, isNullaryOpcode_pop⟩)),
      (5, .branch (.exit .returnVoid))] }

theorem sampleBody_events : sampleBody.events = (sampleEvents, none) := by
  rw [Body.events_eq_of_attached [(0, .plain (.load .int 0), []),
    (1, .plain (.nullary .pop), []), (2, .branch (.exit .returnVoid), [])] rfl,
    Body.eventsWith]
  simp only [List.flatMap_cons, Body.eventsAt_eq, Body.lastEvents_eq]
  rfl

theorem sampleClass_script :
    sampleClass.script =
      ⟨classEvents sampleDeclaration [] [(sampleMethod, sampleEvents)] [], none⟩ := by
  refine ClassFile.script_of_reads (d := sampleDeclaration) rfl (.cons ?_ .nil)
  refine ⟨some ⟨5, sampleCode.write⟩, rfl, sampleBody, ?_, sampleBody_events⟩
  refine Body.read_eq_ok (c := sampleCode) (CodeAttribute.read_write ?_) rfl ?_
  · exact ⟨by decide, ⟨by decide, by simp [sampleCode]⟩, by decide, by simp [sampleCode]⟩
  · exact ⟨by decide, by decide, fun o ho => by cases ho⟩

theorem wideBody_events : wideBody.events = (sampleEvents, none) := by
  rw [Body.events_eq_of_attached [(0, .plain (.load .int 0), []),
    (4, .plain (.nullary ⟨0x57, isNullaryOpcode_pop⟩), []),
    (5, .branch (.exit .returnVoid), [])] rfl, Body.eventsWith]
  simp only [List.flatMap_cons, Body.eventsAt_eq, Body.lastEvents_eq]
  rfl

theorem wideClass_script :
    wideClass.script =
      ⟨classEvents sampleDeclaration [] [(sampleMethod, sampleEvents)] [], none⟩ := by
  refine ClassFile.script_of_reads (d := sampleDeclaration) rfl (.cons ?_ .nil)
  refine ⟨some ⟨5, wideCode.write⟩, rfl, wideBody, ?_, wideBody_events⟩
  refine Body.read_eq_ok (c := wideCode) (CodeAttribute.read_write ?_) rfl ?_
  · exact ⟨by decide, ⟨by decide, by simp [wideCode]⟩, by decide, by simp [wideCode]⟩
  · exact ⟨by decide, by decide, fun o ho => by cases ho⟩

/-- What the builder makes of the events of either class. -/
theorem normalized_of_script {c : ClassFile} (hstored : c.Stored)
    (hscript : c.script =
      ⟨classEvents sampleDeclaration [] [(sampleMethod, sampleEvents)] [], none⟩) :
    normalized c.write = .ok sampleClass.write := by
  have hclose := ClassBuilder.closeMethod_of_assemble (m := ⟨.ofBits 8, 3, 4, []⟩)
    (f := { sampleClass with methods := #[] }) (c := sampleCode)
    (d := sampleEvents.foldl Draft.push (.empty 1 1)) rfl textIndex_sampleClass
  have hevents : classEvents sampleDeclaration [] [(sampleMethod, sampleEvents)] [] =
      (.classStart sampleDeclaration :: .methodStart sampleMethod :: sampleEvents.map .body) ++
        [.methodEnd, .classEnd] := rfl
  have hfeed : ClassBuilder.receive.feed .empty
      (classEvents sampleDeclaration [] [(sampleMethod, sampleEvents)] []) =
        (⟨some sampleClass, none, true⟩, none) := by
    rw [hevents, Sink.feed_append]
    exact ⟨_, rfl, Sink.feed_cons.2 ⟨_, hclose, rfl⟩⟩
  have hdeliver : c.script.deliver ClassBuilder.receive .empty =
      (⟨some sampleClass, none, true⟩, none) := by
    rw [Script.deliver_eq_ok, hscript]
    exact ⟨rfl, hfeed⟩
  refine Except.bind_eq_ok.2 ⟨_, ClassFile.read_write hstored, ?_⟩
  rw [hdeliver]
  rfl

/-- The wide form is gone, and the class comes out as it is from then on. -/
theorem normalized_normalized_wide : normalized wideClass.write = .ok sampleClass.write ∧
    ∃ bytes, normalized sampleClass.write = .ok bytes ∧ bytes = sampleClass.write := by
  have hwide := normalized_of_script stored_wideClass wideClass_script
  have hsample := normalized_of_script stored_sampleClass sampleClass_script
  exact ⟨hwide, _, hsample, normalized_normalized hwide hsample⟩

end FreshLocal
