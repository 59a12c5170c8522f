import FreshLocal.Injection
import FreshLocal.Proofs.ClassAssembly
import FreshLocal.Proofs.PrefixFree

/-!
# The class that was written is the one that was sent

Each method of the class that is stored has the body that the injection sent to
the builder: the same instructions, branches, frames, handlers, tables and
attributes at the same places. Labels, the forms of instructions and the indices
of classes may be others; the content is the same. The bytes of the class are
read back as this class.

The lists of the format are counted in 16 bits, and what is longer is cut off
when a body is stored. The length of an attribute has 32 bits, and a body that
is longer is stored whole, but behind a length that is not its own. So the first
bound is needed for what is stored, and the second one to read it back.

* `withFreshLocals_eq_ok`: what the two stages did.
* `withFreshLocals_fidelity`: **what is stored is what was sent, and it is read
  back unless a body is too long for its attribute**.
* `withFreshLocals_unreadable`: a class with a body of 2 ^ 32 bytes comes out,
  and is not read back.
-/

namespace FreshLocal

variable {options : Options} {bytes bytes' : Bytes}

/-- **What the stages did** when the bytes of a class came out: the class was read, the injection
refused no event of it, and the builder took what the injection sent. -/
theorem withFreshLocals_eq_ok (h : withFreshLocals options bytes = .ok bytes') :
    ∃ file i sent b, ClassFile.read bytes = .ok file ∧ file.script.fault = none ∧
      Stage.run ClassInjection.step (.ofOptions options) file.script.events = (i, sent, none) ∧
      ClassBuilder.receive.feed .empty sent = (b, none) ∧ b.finish = .ok bytes' := by
  obtain ⟨file, hread, h⟩ := Except.bind_eq_ok.1 h
  dsimp only at h
  split at h
  · cases h
  · rename_i i b hdeliver
    obtain ⟨hfault, hfeed⟩ := Script.deliver_eq_ok.1 hdeliver
    obtain ⟨sent, hrun, hbuilt⟩ := Stage.feed_into.1 hfeed
    exact ⟨file, i, sent, b, hread, hfault, hrun, hbuilt, h⟩

/-- A class comes out if each stage takes what the one before it sends. -/
theorem withFreshLocals_of_run {file : ClassFile} {events sent : List ClassEvent}
    {i : ClassInjection} {b : ClassBuilder} (hread : ClassFile.read bytes = .ok file)
    (hscript : file.script = ⟨events, none⟩)
    (hrun : Stage.run ClassInjection.step (.ofOptions options) events = (i, sent, none))
    (hfeed : ClassBuilder.receive.feed .empty sent = (b, none)) (hfinish : b.finish = .ok bytes') :
    withFreshLocals options bytes = .ok bytes' := by
  have hdeliver : file.script.deliver (ClassInjection.step.into ClassBuilder.receive)
      (.ofOptions options, .empty) = ((i, b), none) := by
    rw [Script.deliver_eq_ok, hscript]
    exact ⟨rfl, Stage.feed_into.2 ⟨sent, hrun, hfeed⟩⟩
  refine Except.bind_eq_ok.2 ⟨file, hread, ?_⟩
  dsimp only
  rw [hdeliver]
  exact hfinish

section Methods

variable {pool : ConstantPool}

/-- What the injection makes of methods that were read can be stored. -/
theorem writable_of_reads {name : BinaryName} {ms : List Method} {xs xs' : List SentMethod}
    (hpool : pool.Stored) (hname : ShortText name.text)
    (h : List.Forall₂ (Method.Reads pool) ms xs)
    (hx : List.Forall₂ (ClassInjection.Injected options name) xs xs') :
    List.Forall₂ (Method.Writable pool) ms xs' := by
  induction h generalizing xs' with
  | nil => cases hx; exact .nil
  | cons hfirst _ ih =>
    cases hx with
    | cons hinjected hx => exact .cons (hfirst.writable hpool hname hinjected) (ih hx)

/-- Methods that were stored are read back, if their attributes are not too long. -/
theorem reads_of_written {ms : List Method} {xs : List SentMethod}
    (h : List.Forall₂ (Method.Written pool) ms xs) (hfits : ∀ m ∈ ms, ∀ a ∈ m.attributes, a.Fits) :
    ∃ ys, List.Forall₂ (Method.Reads pool) ms ys ∧ List.Forall₂ SentMethod.Same xs ys := by
  induction h with
  | nil => exact ⟨[], .nil, .nil⟩
  | cons hfirst _ ih =>
    obtain ⟨y, hreads, hsame⟩ := hfirst.reads (hfits _ (by simp)) pool (.refl _)
    obtain ⟨ys, hrest, hsames⟩ := ih fun m hm => hfits m (by simp [hm])
    exact ⟨y :: ys, .cons hreads hrest, .cons hsame hsames⟩

end Methods

/-- What the declaration of a class says. -/
theorem ClassFile.declaration_eq_ok {c : ClassFile} {d : ClassDeclaration}
    (h : c.declaration = .ok d) : c.pool.className c.thisClass = .ok d.name.text ∧
      d = { version := c.version, pool := c.pool, flags := c.flags, thisClass := c.thisClass
            name := d.name, superClass := c.superClass, interfaces := c.interfaces } := by
  obtain ⟨text, htext, h⟩ := Except.bind_eq_ok.1 h
  obtain ⟨name, hname, h⟩ := Except.bind_eq_ok.1 h
  cases h
  rw [BinaryName.ofText_eq_ok (Except.mapError_eq_ok.1 hname)]
  exact ⟨Except.mapError_eq_ok.1 htext, rfl⟩

/-- A class with a pool that has grown has a declaration as well. -/
theorem ClassFile.declaration_grows {c c' : ClassFile} {d : ClassDeclaration}
    (h : c.declaration = .ok d) (hpool : c.pool.Grows c'.pool)
    (hthis : c'.thisClass = c.thisClass) :
    ∃ d', c'.declaration = .ok d' := by
  obtain ⟨text, htext, h⟩ := Except.bind_eq_ok.1 h
  obtain ⟨name, hname, -⟩ := Except.bind_eq_ok.1 h
  refine ⟨_, Except.bind_eq_ok.2 ⟨text, Except.mapError_eq_ok.2 ?_,
    Except.bind_eq_ok.2 ⟨name, hname, rfl⟩⟩⟩
  rw [className, hthis]
  exact hpool.className (Except.mapError_eq_ok.1 htext)

/-- **What is stored is what was sent.** Let the bytes of a class come out. Then the injection sent
some events to the builder, and the builder built a class from them whose bytes these are. Let no
table of a body that was sent and no list in a frame of it be longer than 16 bits can say. Then
method by method the class holds the content of what was sent. If moreover no attribute that holds a
body is longer than 32 bits can say, the class is what is read from the bytes, and method by method
what is read says the same as what was sent. -/
theorem withFreshLocals_fidelity (h : withFreshLocals options bytes = .ok bytes') :
    ∃ file i sent b built, ClassFile.read bytes = .ok file ∧
      Stage.run ClassInjection.step (.ofOptions options) file.script.events = (i, sent, none) ∧
      ClassBuilder.receive.feed .empty sent = (b, none) ∧ b.file = some built ∧
      bytes' = built.write ∧
      ((∀ x ∈ ClassEvent.methods sent, BodyEvent.Bounded x.2) →
        List.Forall₂ (Method.Stores built.pool) built.methods.toList (ClassEvent.methods sent) ∧
        ((∀ m ∈ built.methods, ∀ a ∈ m.attributes, a.HoldsBody built.pool →
            a.body.length < 2 ^ 32) →
          ClassFile.read bytes' = .ok built ∧ built.script.fault = none ∧
            List.Forall₂ SentMethod.Same (ClassEvent.methods sent)
              (ClassEvent.methods built.script.events))) := by
  obtain ⟨file, i, sent, b, hread, hfault, hrun, hfeed, hfinish⟩ := withFreshLocals_eq_ok h
  have hstored := ClassFile.stored_of_read hread
  obtain ⟨d, xs, hdeclaration, hreads, hevents⟩ := ClassFile.script_eq_ok hfault
  obtain ⟨hname, hd⟩ := ClassFile.declaration_eq_ok hdeclaration
  rw [hevents] at hrun
  obtain ⟨xs', hinjected, rfl⟩ := ClassInjection.run_class hrun
  have hwritable := writable_of_reads hstored.pool (hstored.pool.shortClassName hname) hreads
    hinjected
  obtain ⟨built, hbuilt, rfl⟩ := ClassBuilder.finish_eq_ok hfinish
  refine ⟨file, i, _, b, built, hread, hevents ▸ hrun, hfeed, hbuilt, rfl, fun hbound => ?_⟩
  rw [ClassEvent.methods_classEvents] at hbound ⊢
  have hpool : d.pool = file.pool := by rw [hd]
  rw [← hpool] at hwritable
  obtain ⟨pool, ms', hgrows, hpool', hwritten, hfile⟩ :=
    ClassBuilder.feed_class (hpool ▸ hstored.pool) hstored.methods.2 hwritable hbound hfeed
  obtain rfl := Option.some.inj (hbuilt.symm.trans hfile)
  refine ⟨hwritten.imp fun m x hx => hx.stores pool (.refl pool), fun hcode => ?_⟩
  have hfits : ∀ m ∈ ms', ∀ a ∈ m.attributes, a.Fits := by
    intro m hm a ha
    obtain ⟨x, -, hx⟩ := exists_of_mem_right hwritten.flip hm
    obtain hlength | hname := hx.fits a ha
    · exact hlength
    · exact hcode m (by simpa using hm) a ha hname
  obtain ⟨ys, hreads', hsame⟩ := reads_of_written hwritten hfits
  obtain ⟨d', hd'⟩ : ∃ d', ({ ClassBuilder.ofDeclaration d with
      pool, fields := file.fields, methods := ms'.toArray,
      attributes := file.attributes } : ClassFile).declaration = .ok d' :=
    ClassFile.declaration_grows hdeclaration (hpool ▸ hgrows) (by rw [hd]; rfl)
  have hscript := ClassFile.script_of_reads hd' hreads'
  refine ⟨ClassFile.read_write ⟨hpool', ?_, hstored.fields, ⟨?_, fun m hm => ⟨?_, ?_⟩⟩,
    hstored.attributes⟩, by rw [hscript], ?_⟩
  · have hinterfaces : d.interfaces = file.interfaces := by rw [hd]
    change d.interfaces.length ≤ 65535
    rw [hinterfaces]
    exact hstored.interfaces
  · have hcount := hstored.methods.1
    rw [hwritable.length_eq, ← hwritten.length_eq] at hcount
    simpa using hcount
  · obtain ⟨x, -, hx⟩ := exists_of_mem_right hwritten.flip (by simpa using hm)
    exact hx.count
  · exact hfits m (by simpa using hm)
  · rw [hscript, ClassEvent.methods_classEvents]
    exact hsame

/-! ## A class with all kinds of parts -/

/-- A method with a jump, a handler, frames, all tables and an attribute of its own. -/
def variedCode : CodeAttribute where
  maxStack := 1
  maxLocals := 1
  code := [0x1a, 0x99, 0x00, 0x06, 0x84, 0x00, 0xff, 0xb1, 0x57, 0xb1]
  handlers := [⟨4, 7, 8, some 2⟩]
  attributes := [⟨17, [1, 2, 3]⟩,
    ⟨16, AnnotatedType.writeTable [⟨false, .instruction 0x45 4, [], [0, 17, 0, 0]⟩]⟩,
    ⟨15, AnnotatedType.writeTable [⟨true, .localVariable false [⟨4, 8, 0⟩], [], [0, 17, 0, 0]⟩]⟩,
    ⟨14, VariableEntry.writeTable [⟨0, 10, 7, 9, 0⟩]⟩,
    ⟨13, VariableEntry.writeTable [⟨0, 10, 7, 9, 0⟩]⟩,
    ⟨12, LineNumber.writeTable [⟨0, 10⟩, ⟨7, 11⟩]⟩,
    ⟨11, StackMapFrame.writeTable [⟨7, .same⟩, ⟨0, .sameOne (.object 2)⟩]⟩]

/-- A method that returns at once. -/
def stopCode : CodeAttribute := ⟨0, 1, [0xb1], [], []⟩

/-- The class of both methods and of one without a body. It has a superclass, an interface, a field,
and attributes outside of the bodies as well. -/
def variedClass : ClassFile where
  version := .java8
  pool := ⟨#[none, some (.utf8 "me/Main"), some (.classRef 1), some (.utf8 "java/lang/Object"),
    some (.classRef 3), some (.utf8 "java/lang/Runnable"), some (.classRef 5),
    some (.utf8 "count"), some (.utf8 "(I)V"), some (.utf8 "I"), some (.utf8 "Code"),
    some (.utf8 "StackMapTable"), some (.utf8 "LineNumberTable"),
    some (.utf8 "LocalVariableTable"), some (.utf8 "LocalVariableTypeTable"),
    some (.utf8 "RuntimeVisibleTypeAnnotations"), some (.utf8 "RuntimeInvisibleTypeAnnotations"),
    some (.utf8 "Note"), some (.utf8 "stop"), some (.utf8 "()V")]⟩
  flags := .publicSuper
  thisClass := 2
  superClass := 4
  interfaces := [6]
  fields := #[⟨.ofBits 2, 7, 9, [⟨17, [4]⟩]⟩]
  methods := #[⟨.ofBits 0x0401, 18, 19, [⟨17, [5]⟩]⟩,
    ⟨.ofBits 8, 18, 8, [⟨17, [6]⟩, ⟨10, stopCode.write⟩]⟩,
    ⟨.ofBits 8, 7, 8, [⟨10, variedCode.write⟩]⟩]
  attributes := #[⟨17, [7]⟩]

theorem stored_variedClass : variedClass.Stored := by
  refine ⟨⟨[.utf8 "me/Main", .classRef 1, .utf8 "java/lang/Object", .classRef 3,
    .utf8 "java/lang/Runnable", .classRef 5, .utf8 "count", .utf8 "(I)V", .utf8 "I", .utf8 "Code",
    .utf8 "StackMapTable", .utf8 "LineNumberTable", .utf8 "LocalVariableTable",
    .utf8 "LocalVariableTypeTable", .utf8 "RuntimeVisibleTypeAnnotations",
    .utf8 "RuntimeInvisibleTypeAnnotations", .utf8 "Note", .utf8 "stop", .utf8 "()V"], rfl,
    by decide, ?_⟩, by decide, ⟨by decide, ?_⟩, ⟨by decide, ?_⟩, ⟨by decide, ?_⟩⟩
  · have hlength : ∀ text ∈ ["me/Main", "java/lang/Object", "java/lang/Runnable", "count", "(I)V",
        "I", "Code", "StackMapTable", "LineNumberTable", "LocalVariableTable",
        "LocalVariableTypeTable", "RuntimeVisibleTypeAnnotations",
        "RuntimeInvisibleTypeAnnotations", "Note", "stop", "()V"],
        6 * text.toList.length ≤ 65535 := by decide
    simpa [Constant.Fits] using fun text htext => ShortText.of_length (hlength text htext)
  · unfold Member.Fits Attribute.Fits
    decide
  · unfold Member.Fits Attribute.Fits
    decide +kernel
  · unfold Attribute.Fits
    decide

def NullaryOp.pop : NullaryOp := ⟨0x57, by decide⟩

def stopBody : Body where
  maxStack := 0
  maxLocals := 1
  length := 1
  operations := [(0, .branch (.exit .returnVoid))]
  handlers := []
  frames := []
  lines := []
  locals := []
  genericLocals := []
  annotations := []
  attributes := []

/-- The body of the method with all tables. -/
def variedBody : Body where
  maxStack := 1
  maxLocals := 1
  length := 10
  operations := [(0, .plain (.load .int 0)), (1, .branch (.jump (.zero .eq) 7)),
    (4, .plain (.iinc 0 (-1))), (7, .branch (.exit .returnVoid)),
    (8, .plain (.nullary .pop)), (9, .branch (.exit .returnVoid))]
  handlers := [⟨4, 7, 8, some 2⟩]
  frames := [(7, .same), (8, .sameOne (.object "me/Main"))]
  lines := [⟨0, 10⟩, ⟨7, 11⟩]
  locals := [⟨0, 10, 7, 9, 0⟩]
  genericLocals := [⟨0, 10, 7, 9, 0⟩]
  annotations := [⟨false, .instruction 0x45 4, [], [0, 17, 0, 0]⟩,
    ⟨true, .localVariable false [⟨4, 8, 0⟩], [], [0, 17, 0, 0]⟩]
  attributes := [⟨17, [1, 2, 3]⟩]

theorem references_varied :
    variedBody.references = [7, 4, 7, 8, 7, 8, 0, 7, 0, 10, 0, 10, 4, 4, 8] := rfl

theorem disassemble_varied : disassemble variedCode.code = .ok variedBody.operations := by
  have hread : Reader.untilEnd (Operation.read 10) (.start variedCode.code) =
      .ok (variedBody.operations, ⟨10, []⟩) := rfl
  have hstart : hasStart (startOffsets variedBody.operations) 7 = true :=
    (hasStart_iff (by decide)).2 (by decide)
  have hfind : (variedBody.operations.flatMap (·.2.targets)).find?
      (!hasStart (startOffsets variedBody.operations) ·) = none := by
    show List.find? _ [7] = none
    rw [List.find?_cons, hstart]
    rfl
  refine Except.bind_eq_ok.2 ⟨_, hread, ?_⟩
  dsimp only
  rw [hfind]
  rfl

theorem read_varied : Body.read variedClass.pool variedCode.write = .ok variedBody := by
  have hcode : Body.ofAttribute variedClass.pool variedCode = .ok variedBody :=
    Except.bind_eq_ok.2 ⟨_, disassemble_varied, rfl⟩
  refine Body.read_eq_ok (CodeAttribute.read_write ?_) hcode ⟨by decide, by decide, ?_⟩
  · refine ⟨by decide, ⟨by decide, fun x hx => ?_⟩, by decide, ?_⟩
    · obtain rfl := List.mem_singleton.1 hx
      unfold Handler.Fits
      decide
    · unfold Attribute.Fits
      decide
  · rw [references_varied]
    decide

/-- The events of the body, with labels by the offsets that they stand for. -/
def variedEvents : List BodyEvent :=
  let l := variedBody.label
  [.start 1 1, .handler ⟨l 4, l 7, l 8, some 2⟩, .label (l 0), .lineNumber 10 (l 0),
    .operation (.plain (.load .int 0)), .operation (.branch (.jump (.zero .eq) (l 7))),
    .label (l 4), .operation (.plain (.iinc 0 (-1))), .label (l 7), .lineNumber 11 (l 7),
    .frame .same, .operation (.branch (.exit .returnVoid)), .label (l 8),
    .frame (.sameOne (.object "me/Main")), .operation (.plain (.nullary .pop)),
    .operation (.branch (.exit .returnVoid)), .label (l 10),
    .localVariable false ⟨7, 9, l 0, l 10, 0⟩, .localVariable true ⟨7, 9, l 0, l 10, 0⟩,
    .annotatedType ⟨false, .instruction 0x45 (l 4), [], [0, 17, 0, 0]⟩,
    .annotatedType ⟨true, .localVariable false [⟨l 4, l 8, 0⟩], [], [0, 17, 0, 0]⟩,
    .attribute ⟨17, [1, 2, 3]⟩, .limits 1 1]

theorem variedBody_events : variedBody.events = (variedEvents, none) := by
  rw [Body.events_eq_of_attached [(0, .plain (.load .int 0), []),
    (1, .branch (.jump (.zero .eq) 7), []), (4, .plain (.iinc 0 (-1)), []),
    (7, .branch (.exit .returnVoid), [.same]),
    (8, .plain (.nullary .pop), [.sameOne (.object "me/Main")]),
    (9, .branch (.exit .returnVoid), [])] rfl,
    Body.eventsWith]
  simp only [List.flatMap_cons, Body.eventsAt_eq, Body.lastEvents_eq]
  rfl

def stopEvents : List BodyEvent :=
  [.start 0 1, .operation (.branch (.exit .returnVoid)), .limits 0 1]

theorem stopBody_events : stopBody.events = (stopEvents, none) := by
  rw [Body.events_eq_of_attached [(0, .branch (.exit .returnVoid), [])] rfl,
    Body.eventsWith]
  simp only [List.flatMap_cons, Body.eventsAt_eq, Body.lastEvents_eq]
  rfl

def variedDeclaration : ClassDeclaration :=
  ⟨.java8, variedClass.pool, .publicSuper, 2, ⟨"me/Main", by decide⟩, 4, [6]⟩

/-- The methods as they are sent, given the bodies of the two that have one. -/
def variedMethods (stop varied : List BodyEvent) : List SentMethod :=
  [(⟨.ofBits 0x0401, ⟨"stop", by decide⟩, 18, ⟨[], none⟩, 19, [⟨17, [5]⟩]⟩, []),
    (⟨.ofBits 8, ⟨"stop", by decide⟩, 18, ⟨[.ofBase .int], none⟩, 8, [⟨17, [6]⟩]⟩, stop),
    (⟨.ofBits 8, ⟨"count", by decide⟩, 7, ⟨[.ofBase .int], none⟩, 8, []⟩, varied)]

/-- What is sent of the class. -/
def variedStream (stop varied : List BodyEvent) : List ClassEvent :=
  classEvents variedDeclaration [⟨.ofBits 2, 7, 9, [⟨17, [4]⟩]⟩] (variedMethods stop varied)
    [⟨17, [7]⟩]

theorem variedClass_script :
    variedClass.script = ⟨variedStream stopEvents variedEvents, none⟩ := by
  refine ClassFile.script_of_reads (d := variedDeclaration) rfl
    (.cons ⟨none, rfl, rfl⟩ (.cons ?_ (.cons ?_ .nil)))
  · refine ⟨some ⟨10, stopCode.write⟩, rfl, stopBody, ?_, stopBody_events⟩
    refine Body.read_eq_ok (c := stopCode) (CodeAttribute.read_write ?_) rfl ?_
    · exact ⟨by decide, ⟨by decide, by simp [stopCode]⟩, by decide, by simp [stopCode]⟩
    · exact ⟨by decide, by decide, fun o ho => by cases ho⟩
  · exact ⟨some ⟨10, variedCode.write⟩, rfl, variedBody, read_varied, variedBody_events⟩

/-- The bodies with the new variable. -/
def stopSent : List BodyEvent :=
  [.start 0 1, .operation (.plain (.nullary .iconstM1)), .operation (.plain (.store .int 1)),
    .operation (.branch (.exit .returnVoid)), .limits 1 2]

def variedSent : List BodyEvent :=
  let l := variedBody.label
  [.start 1 1, .operation (.plain (.nullary .iconstM1)), .operation (.plain (.store .int 1)),
    .handler ⟨l 4, l 7, l 8, some 2⟩, .label (l 0), .lineNumber 10 (l 0),
    .operation (.plain (.load .int 0)), .operation (.branch (.jump (.zero .eq) (l 7))),
    .label (l 4), .operation (.plain (.iinc 0 (-1))), .label (l 7), .lineNumber 11 (l 7),
    .frame (.full [.integer, .integer] []), .operation (.branch (.exit .returnVoid)),
    .label (l 8), .frame (.sameOne (.object "me/Main")),
    .operation (.plain (.nullary .pop)), .operation (.branch (.exit .returnVoid)),
    .label (l 10), .localVariable false ⟨7, 9, l 0, l 10, 0⟩,
    .localVariable true ⟨7, 9, l 0, l 10, 0⟩,
    .annotatedType ⟨false, .instruction 0x45 (l 4), [], [0, 17, 0, 0]⟩,
    .annotatedType ⟨true, .localVariable false [⟨l 4, l 8, 0⟩], [], [0, 17, 0, 0]⟩,
    .attribute ⟨17, [1, 2, 3]⟩, .limits 1 2]

theorem variedClass_run : ∃ i, Stage.run ClassInjection.step (.ofOptions .standard)
    (variedStream stopEvents variedEvents) = (i, variedStream stopSent variedSent, none) :=
  ⟨_, rfl⟩

/-- The code that comes out, with the label of each offset. -/
def variedItems : List PlacedItem :=
  let l := variedBody.label
  [⟨0, .operation (.plain (.nullary .iconstM1)), false⟩,
    ⟨1, .operation (.plain (.store .int 1)), false⟩,
    ⟨2, .label (l 0), false⟩, ⟨2, .operation (.plain (.load .int 0)), false⟩,
    ⟨3, .operation (.branch (.jump (.zero .eq) (l 7))), false⟩,
    ⟨6, .label (l 4), false⟩, ⟨6, .operation (.plain (.iinc 0 (-1))), false⟩,
    ⟨9, .label (l 7), false⟩, ⟨9, .frame (.full [.integer, .integer] []), false⟩,
    ⟨9, .operation (.branch (.exit .returnVoid)), false⟩,
    ⟨10, .label (l 8), false⟩, ⟨10, .frame (.sameOne (.object "me/Main")), false⟩,
    ⟨10, .operation (.plain (.nullary .pop)), false⟩,
    ⟨11, .operation (.branch (.exit .returnVoid)), false⟩, ⟨12, .label (l 10), false⟩]

def variedLayout : Layout :=
  let l := variedBody.label
  ⟨variedItems, ((((Std.HashMap.insert ∅ (l 0) 2).insert (l 4) 6).insert (l 7) 9).insert
    (l 8) 10).insert (l 10) 12, 12⟩

theorem label_varied {o o' : Nat} (ho : o ∈ [0, 4, 7, 8, 10]) (ho' : o' ∈ [0, 4, 7, 8, 10]) :
    variedBody.label o = variedBody.label o' ↔ o = o' := by
  have hsub : ∀ o ∈ [0, 4, 7, 8, 10], o ∈ variedBody.references := by
    rw [references_varied]
    decide
  exact ⟨variedBody.label_inj (hsub o ho) (hsub o' ho'), congrArg _⟩

theorem ofItems_varied : Layout.ofItems (variedItems.map (·.item)) = .ok variedLayout := by
  refine Except.bind_eq_ok.2 ⟨variedLayout, ?_, rfl⟩
  refine (Layout.placeOnto_label ?_).trans ?_
  · simp
  refine (Layout.placeOnto_label ?_).trans ?_
  · simp [label_varied]
  refine (Layout.placeOnto_label ?_).trans ?_
  · simp [label_varied]
  refine (Layout.placeOnto_label ?_).trans ?_
  · simp [label_varied]
  refine (Layout.placeOnto_label ?_).trans ?_
  · simp [label_varied]
  rfl

theorem offset_varied : ∀ x ∈ [(0, 2), (4, 6), (7, 9), (8, 10), (10, 12)],
    variedLayout.offset (variedBody.label x.1) = .ok x.2 := by
  simp [Layout.offset, variedLayout, Std.HashMap.getElem?_insert, label_varied]

theorem offset16_varied : ∀ x ∈ [(0, 2), (4, 6), (7, 9), (8, 10), (10, 12)],
    variedLayout.offset16 (variedBody.label x.1) = .ok (UInt16.ofNat x.2) := by
  intro x hx
  refine Except.bind_eq_ok.2 ⟨x.2, offset_varied x hx, if_pos ?_⟩
  revert x
  decide

section Assembly

open PoolM

/-- No constant has to be added for the class. -/
theorem textIndex_varied : ∀ x ∈ ([("me/Main", 1), ("Code", 10), ("StackMapTable", 11),
      ("LineNumberTable", 12), ("LocalVariableTable", 13), ("LocalVariableTypeTable", 14),
      ("RuntimeVisibleTypeAnnotations", 15), ("RuntimeInvisibleTypeAnnotations", 16)] :
        List (String × PoolIndex)),
    (ConstantPool.textIndex x.1).run variedClass.pool = .ok x.2 variedClass.pool := by
  intro x hx
  refine ConstantPool.intern_of_found ?_
  rw [ConstantPool.findIndex?_toList]
  revert x
  decide

theorem tableAttribute_varied {α : Type} {name : String} {index : PoolIndex}
    (hname : (ConstantPool.textIndex name).run variedClass.pool = .ok index variedClass.pool)
    (write : List α → Bytes) {entries : List α} (hne : entries ≠ []) :
    (tableAttribute name write entries).run variedClass.pool =
      .ok [⟨index, write entries⟩] variedClass.pool := by
  have hisEmpty : entries.isEmpty = false := List.isEmpty_eq_false_iff.2 hne
  unfold tableAttribute
  rw [hisEmpty]
  exact bind_eq_ok.2 ⟨⟨index, write entries⟩, variedClass.pool,
    bind_eq_ok.2 ⟨index, variedClass.pool, hname, rfl⟩, rfl⟩

/-- The code and the frames, each with the last one in front. -/
theorem assembleItems_varied :
    (variedItems.foldlM variedLayout.assembleItem ⟨[], [], none⟩).run variedClass.pool =
      .ok ⟨[[0xb1], [0x57], [0xb1], [0x84, 0x00, 0xff], [0x99, 0x00, 0x06], [0x1a], [0x3c], [0x02]],
        [⟨0, .sameOne (.object 2)⟩, ⟨9, .full [.integer, .integer] []⟩], some 10⟩
        variedClass.pool := by
  let p := variedClass.pool
  have hjump : variedLayout.encodeBranch
      ⟨3, .operation (.branch (.jump (.zero .eq) (variedBody.label 7))), false⟩
      (.jump (.zero .eq) (variedBody.label 7)) = .ok [0x99, 0x00, 0x06] := by
    refine Except.map_eq_ok.2 ⟨.jump (.zero .eq) 6, Except.map_eq_ok.2 ⟨6, ?_, rfl⟩, rfl⟩
    have hoffset := offset_varied (7, 9) (by decide)
    exact Except.bind_eq_ok.2 ⟨6, Except.bind_eq_ok.2 ⟨9, hoffset, rfl⟩, rfl⟩
  have hclass : (ConstantPool.classIndex "me/Main").run p = .ok 2 p :=
    bind_eq_ok.2 ⟨1, p, textIndex_varied ("me/Main", 1) (by decide),
      ConstantPool.intern_of_found (by rw [ConstantPool.findIndex?_toList]; decide)⟩
  -- the first four items, the jump, the next six, and the frame that names a class
  refine bind_eq_ok.2 ⟨_, p, rfl, bind_eq_ok.2 ⟨_, p, rfl, bind_eq_ok.2 ⟨_, p, rfl, ?_⟩⟩⟩
  refine bind_eq_ok.2 ⟨_, p, rfl, ?_⟩
  refine bind_eq_ok.2 ⟨_, p, bind_eq_ok.2 ⟨_, p, ofExcept_eq_ok.2 ⟨hjump, rfl⟩, rfl⟩, ?_⟩
  refine bind_eq_ok.2 ⟨_, p, rfl, bind_eq_ok.2 ⟨_, p, rfl, bind_eq_ok.2 ⟨_, p, rfl, ?_⟩⟩⟩
  refine bind_eq_ok.2 ⟨_, p, rfl, bind_eq_ok.2 ⟨_, p, rfl, bind_eq_ok.2 ⟨_, p, rfl, ?_⟩⟩⟩
  refine bind_eq_ok.2 ⟨_, p, bind_eq_ok.2 ⟨⟨0, .sameOne (.object 2)⟩, p, ?_, rfl⟩, ?_⟩
  · exact map_eq_ok.2 ⟨_, map_eq_ok.2 ⟨_, map_eq_ok.2 ⟨2, hclass, rfl⟩, rfl⟩, rfl⟩
  · exact bind_eq_ok.2 ⟨_, p, rfl, bind_eq_ok.2 ⟨_, p, rfl, bind_eq_ok.2 ⟨_, p, rfl, rfl⟩⟩⟩

/-- The body that is stored. -/
def variedStored : CodeAttribute where
  maxStack := 1
  maxLocals := 2
  code := [0x02, 0x3c, 0x1a, 0x99, 0x00, 0x06, 0x84, 0x00, 0xff, 0xb1, 0x57, 0xb1]
  handlers := [⟨6, 9, 10, some 2⟩]
  attributes := [
    ⟨11, StackMapFrame.writeTable
      [⟨9, .full [.integer, .integer] []⟩, ⟨0, .sameOne (.object 2)⟩]⟩,
    ⟨12, LineNumber.writeTable [⟨2, 10⟩, ⟨9, 11⟩]⟩,
    ⟨13, VariableEntry.writeTable [⟨2, 10, 7, 9, 0⟩]⟩,
    ⟨14, VariableEntry.writeTable [⟨2, 10, 7, 9, 0⟩]⟩,
    ⟨15, AnnotatedType.writeTable [⟨true, .localVariable false [⟨6, 10, 0⟩], [], [0, 17, 0, 0]⟩]⟩,
    ⟨16, AnnotatedType.writeTable [⟨false, .instruction 0x45 6, [], [0, 17, 0, 0]⟩]⟩,
    ⟨17, [1, 2, 3]⟩]

theorem assemble_varied : (variedSent.foldl Draft.push (.empty 1 1)).assemble.run
    variedClass.pool = .ok variedStored variedClass.pool := by
  let d : Draft := variedSent.foldl Draft.push (.empty 1 1)
  let p := variedClass.pool
  have h0 := offset16_varied (0, 2) (by decide)
  have h4 := offset16_varied (4, 6) (by decide)
  have h7 := offset16_varied (7, 9) (by decide)
  have h8 := offset16_varied (8, 10) (by decide)
  have h10 := offset16_varied (10, 12) (by decide)
  have hhandlers : d.handlers.toList.mapM (·.mapM variedLayout.offset16) =
      .ok [⟨6, 9, 10, some 2⟩] := by
    refine mapM_eq_ok.2 (.cons ?_ .nil)
    refine Except.bind_eq_ok.2 ⟨_, h4, Except.bind_eq_ok.2 ⟨_, h7, ?_⟩⟩
    exact Except.bind_eq_ok.2 ⟨_, h8, rfl⟩
  have hframes := tableAttribute_varied (textIndex_varied ("StackMapTable", 11) (by decide))
    StackMapFrame.writeTable
    (List.cons_ne_nil ⟨9, .full [.integer, .integer] []⟩ [⟨0, .sameOne (.object 2)⟩])
  have hlines : (d.lineTable variedLayout).run p =
      .ok [⟨12, LineNumber.writeTable [⟨2, 10⟩, ⟨9, 11⟩]⟩] p := by
    have htable := textIndex_varied ("LineNumberTable", 12) (by decide)
    refine bind_eq_ok.2 ⟨[⟨2, 10⟩, ⟨9, 11⟩], p, ofExcept_eq_ok.2 ⟨mapM_eq_ok.2 ?_, rfl⟩,
      tableAttribute_varied htable _ (List.cons_ne_nil _ _)⟩
    exact .cons (Except.map_eq_ok.2 ⟨_, h0, rfl⟩) (.cons (Except.map_eq_ok.2 ⟨_, h7, rfl⟩) .nil)
  -- the same variable stands in both tables
  have hvariable : [⟨7, 9, variedBody.label 0, variedBody.label 10, 0⟩].mapM
      variedLayout.storeVariable = .ok [⟨2, 10, 7, 9, 0⟩] :=
    mapM_eq_ok.2 (.cons (Except.bind_eq_ok.2 ⟨_, h0, Except.bind_eq_ok.2 ⟨_, h10, rfl⟩⟩) .nil)
  have hlocals : (d.variableTable variedLayout false).run p =
      .ok [⟨13, VariableEntry.writeTable [⟨2, 10, 7, 9, 0⟩]⟩] p := by
    have htable := textIndex_varied ("LocalVariableTable", 13) (by decide)
    exact bind_eq_ok.2 ⟨_, p, ofExcept_eq_ok.2 ⟨hvariable, rfl⟩,
      tableAttribute_varied htable _ (List.cons_ne_nil _ _)⟩
  have hgenerics : (d.variableTable variedLayout true).run p =
      .ok [⟨14, VariableEntry.writeTable [⟨2, 10, 7, 9, 0⟩]⟩] p := by
    have htable := textIndex_varied ("LocalVariableTypeTable", 14) (by decide)
    exact bind_eq_ok.2 ⟨_, p, ofExcept_eq_ok.2 ⟨hvariable, rfl⟩,
      tableAttribute_varied htable _ (List.cons_ne_nil _ _)⟩
  have hvisible : (d.annotationTable variedLayout true).run p =
      .ok [⟨15, AnnotatedType.writeTable
        [⟨true, .localVariable false [⟨6, 10, 0⟩], [], [0, 17, 0, 0]⟩]⟩] p := by
    have htarget : (AnnotationTarget.localVariable false
        [⟨variedBody.label 4, variedBody.label 8, 0⟩]).mapM variedLayout.offset16 =
          .ok (.localVariable false [⟨6, 10, 0⟩]) := by
      refine Except.map_eq_ok.2 ⟨_, mapM_eq_ok.2 (.cons ?_ .nil), rfl⟩
      exact Except.bind_eq_ok.2 ⟨_, h4, Except.bind_eq_ok.2 ⟨_, h8, rfl⟩⟩
    have htable := textIndex_varied ("RuntimeVisibleTypeAnnotations", 15) (by decide)
    refine bind_eq_ok.2 ⟨_, p, ofExcept_eq_ok.2 ⟨mapM_eq_ok.2 (.cons ?_ .nil), rfl⟩,
      tableAttribute_varied htable _ (List.cons_ne_nil _ _)⟩
    exact Except.bind_eq_ok.2 ⟨_, htarget, rfl⟩
  have hinvisible : (d.annotationTable variedLayout false).run p =
      .ok [⟨16, AnnotatedType.writeTable [⟨false, .instruction 0x45 6, [], [0, 17, 0, 0]⟩]⟩] p := by
    have htable := textIndex_varied ("RuntimeInvisibleTypeAnnotations", 16) (by decide)
    refine bind_eq_ok.2 ⟨_, p, ofExcept_eq_ok.2 ⟨mapM_eq_ok.2 (.cons ?_ .nil), rfl⟩,
      tableAttribute_varied htable _ (List.cons_ne_nil _ _)⟩
    exact Except.bind_eq_ok.2 ⟨_, Except.map_eq_ok.2 ⟨_, h4, rfl⟩, rfl⟩
  exact Draft.assemble_iff.2 ⟨variedLayout, _, _, _, _, _, _, _, _, p, p, p, p, p, p,
    ofItems_varied, assembleItems_varied, hhandlers, hframes, hlines, hlocals, hgenerics, hvisible,
    hinvisible, rfl⟩

end Assembly

/-- The class that is built. -/
def variedBuilt : ClassFile :=
  { variedClass with
    methods := #[⟨.ofBits 0x0401, 18, 19, [⟨17, [5]⟩]⟩,
      ⟨.ofBits 8, 18, 8, [⟨10, CodeAttribute.write ⟨1, 2, [0x02, 0x3c, 0xb1], [], []⟩⟩, ⟨17, [6]⟩]⟩,
      ⟨.ofBits 8, 7, 8, [⟨10, variedStored.write⟩]⟩] }

theorem variedClass_feed :
    ClassBuilder.receive.feed .empty (variedStream stopSent variedSent) =
      (⟨some variedBuilt, none, true⟩, none) := by
  have hname := textIndex_varied ("Code", 10) (by decide)
  have hevents : variedStream stopSent variedSent =
      (((.classStart variedDeclaration :: .field ⟨.ofBits 2, 7, 9, [⟨17, [4]⟩]⟩ ::
        methodEvents ((variedMethods stopSent variedSent)[0])) ++
          .methodStart ((variedMethods stopSent variedSent)[1]).1 :: stopSent.map .body) ++
        .methodEnd :: .methodStart ((variedMethods stopSent variedSent)[2]).1 ::
          variedSent.map .body) ++ [.methodEnd, .attribute ⟨17, [7]⟩, .classEnd] := rfl
  have hstop := ClassBuilder.closeMethod_of_assemble (m := ⟨.ofBits 8, 18, 8, [⟨17, [6]⟩]⟩)
    (f := { variedBuilt with methods := variedBuilt.methods.take 1, attributes := #[] })
    (d := stopSent.foldl Draft.push (.empty 0 1)) (c := ⟨1, 2, [0x02, 0x3c, 0xb1], [], []⟩) rfl
    hname
  have hvaried := ClassBuilder.closeMethod_of_assemble (m := ⟨.ofBits 8, 7, 8, []⟩)
    (f := { variedBuilt with methods := variedBuilt.methods.take 2, attributes := #[] })
    assemble_varied hname
  rw [hevents, Sink.feed_append]
  exact ⟨_, Sink.feed_append.2 ⟨_, rfl, Sink.feed_cons.2 ⟨_, hstop, rfl⟩⟩,
    Sink.feed_cons.2 ⟨_, hvaried, rfl⟩⟩

theorem length_variedBuilt : variedBuilt.write.length < 2 ^ 32 := by decide +kernel

theorem withFreshLocals_varied :
    withFreshLocals .standard variedClass.write = .ok variedBuilt.write := by
  obtain ⟨i, hrun⟩ := variedClass_run
  exact withFreshLocals_of_run (ClassFile.read_write stored_variedClass) variedClass_script hrun
    variedClass_feed rfl

/-- The class comes out with all that was sent, and is read back. -/
theorem withFreshLocals_fidelity_varied :
    withFreshLocals .standard variedClass.write = .ok variedBuilt.write ∧
      List.Forall₂ (Method.Stores variedBuilt.pool) variedBuilt.methods.toList
        (variedMethods stopSent variedSent) ∧
      ClassFile.read variedBuilt.write = .ok variedBuilt ∧ variedBuilt.script.fault = none ∧
      List.Forall₂ SentMethod.Same (variedMethods stopSent variedSent)
        (ClassEvent.methods variedBuilt.script.events) := by
  obtain ⟨file, i, sent, b, built, hread, hrun, hfeed, hbuilt, -, hstores⟩ :=
    withFreshLocals_fidelity withFreshLocals_varied
  obtain rfl := Except.ok.inj ((ClassFile.read_write stored_variedClass).symm.trans hread)
  obtain ⟨i', hrun'⟩ := variedClass_run
  rw [variedClass_script, hrun'] at hrun
  obtain ⟨-, hsent⟩ := Prod.mk.inj hrun
  obtain ⟨rfl, -⟩ := Prod.mk.inj hsent
  rw [variedClass_feed] at hfeed
  obtain ⟨rfl, -⟩ := Prod.mk.inj hfeed
  obtain rfl : variedBuilt = built := Option.some.inj hbuilt
  rw [variedStream, ClassEvent.methods_classEvents] at hstores
  have hbound : ∀ x ∈ variedMethods stopSent variedSent, BodyEvent.Bounded x.2 := by
    intro x hx
    simp only [variedMethods, List.mem_cons, List.not_mem_nil, or_false] at hx
    obtain rfl | rfl | rfl := hx
    · exact BodyEvent.bounded_of_length (by decide) (by simp)
    · exact BodyEvent.bounded_of_length (by decide) (by simp [stopSent])
    · exact BodyEvent.bounded_of_length (by decide) (by simp [variedSent])
  obtain ⟨hall, hback⟩ := hstores hbound
  exact ⟨withFreshLocals_varied, hall, hback fun m hm a ha _ =>
    (ClassFile.length_body_le hm ha).trans_lt length_variedBuilt⟩

/-! ## A body that is too long -/

/-- A method that drops its argument and returns. -/
def sampleCode : CodeAttribute := ⟨1, 1, [0x1a, 0x57, 0xb1], [], []⟩

/-- The class of the method, which is called `count`. -/
def sampleClass : ClassFile where
  version := .java8
  pool := ⟨#[none, some (.utf8 "me/Main"), some (.classRef 1), some (.utf8 "count"),
    some (.utf8 "(I)V"), some (.utf8 "Code")]⟩
  flags := .publicSuper
  thisClass := 2
  superClass := 0
  interfaces := []
  fields := #[]
  methods := #[⟨.ofBits 8, 3, 4, [⟨5, sampleCode.write⟩]⟩]
  attributes := #[]

theorem stored_sampleClass : sampleClass.Stored := by
  refine ⟨⟨[.utf8 "me/Main", .classRef 1, .utf8 "count", .utf8 "(I)V", .utf8 "Code"], rfl,
    by decide, fun c hc => ?_⟩, by decide, ⟨by decide, by simp [sampleClass]⟩,
    ⟨by decide, fun m hm => ?_⟩, ⟨by decide, by simp [sampleClass]⟩⟩
  · simp only [List.mem_cons, List.not_mem_nil, or_false] at hc
    rcases hc with rfl | rfl | rfl | rfl | rfl
    all_goals first | trivial | exact ShortText.of_length (by decide)
  · obtain rfl := List.mem_singleton.1 hm
    refine ⟨by decide, fun a ha => ?_⟩
    obtain rfl := List.mem_singleton.1 ha
    unfold Attribute.Fits
    decide

theorem textIndex_sampleClass : (ConstantPool.textIndex CodeAttribute.name).run sampleClass.pool =
    .ok 5 sampleClass.pool :=
  ConstantPool.intern_of_found (by rw [ConstantPool.findIndex?_toList]; decide)

/-- The body of the method. -/
def sampleBody : Body where
  maxStack := 1
  maxLocals := 1
  length := 3
  operations := [(0, .plain (.load .int 0)), (1, .plain (.nullary .pop)),
    (2, .branch (.exit .returnVoid))]
  handlers := []
  frames := []
  lines := []
  locals := []
  genericLocals := []
  annotations := []
  attributes := []

def sampleDeclaration : ClassDeclaration :=
  ⟨.java8, sampleClass.pool, .publicSuper, 2, ⟨"me/Main", by decide⟩, 0, []⟩

def sampleMethod : MethodDeclaration :=
  ⟨.ofBits 8, ⟨"count", by decide⟩, 3, ⟨[.ofBase .int], none⟩, 4, []⟩

/-- The code of the method with an attribute that nothing looks into. -/
def overlongCode (note : Bytes) : CodeAttribute := { sampleCode with attributes := [⟨3, note⟩] }

/-- The class of this code. -/
def overlongClass (note : Bytes) : ClassFile :=
  { sampleClass with methods := #[⟨.ofBits 8, 3, 4, [⟨5, (overlongCode note).write⟩]⟩] }

/-- The body as it is read. -/
def overlongBody (note : Bytes) : Body := { sampleBody with attributes := [⟨3, note⟩] }

/-- Its events. -/
def overlongEvents (note : Bytes) : List BodyEvent :=
  [.start 1 1, .operation (.plain (.load .int 0)),
    .operation (.plain (.nullary .pop)), .operation (.branch (.exit .returnVoid)),
    .attribute ⟨3, note⟩, .limits 1 1]

/-- What is sent of it with the new variable. -/
def overlongSent (note : Bytes) : List BodyEvent :=
  [.start 1 1, .operation (.plain (.nullary .iconstM1)), .operation (.plain (.store .int 1)),
    .operation (.plain (.load .int 0)), .operation (.plain (.nullary .pop)),
    .operation (.branch (.exit .returnVoid)), .attribute ⟨3, note⟩, .limits 1 2]

/-- The body that is stored, two bytes longer. -/
def overlongStored (note : Bytes) : CodeAttribute :=
  ⟨1, 2, [0x02, 0x3c, 0x1a, 0x57, 0xb1], [], [⟨3, note⟩]⟩

/-- The class that is built. -/
def overlongBuilt (note : Bytes) : ClassFile :=
  { sampleClass with methods := #[⟨.ofBits 8, 3, 4, [⟨5, (overlongStored note).write⟩]⟩] }

/-- A class whose body is empty, with the limits and the code of the body in an attribute of its
own. -/
def shornClass : ClassFile :=
  { sampleClass with
    methods := #[⟨.ofBits 8, 3, 4, [⟨5, []⟩]⟩]
    attributes := #[⟨2, [0x02, 0x3c, 0x1a, 0x57, 0xb1]⟩] }

theorem stored_shornClass : shornClass.Stored := by
  refine ⟨stored_sampleClass.pool, stored_sampleClass.interfaces, stored_sampleClass.fields,
    ⟨by decide, ?_⟩, ⟨by decide, ?_⟩⟩
  · unfold Member.Fits Attribute.Fits
    decide
  · unfold Attribute.Fits
    decide

section Overlong

variable {note : Bytes}

theorem length_overlongCode : (overlongCode note).write.length = note.length + 21 := by
  simp [overlongCode, sampleCode, CodeAttribute.write, Bytes.counted, Attribute.write, Bytes.u16,
    Bytes.u32, Bytes.length_number]
  omega

theorem length_overlongStored : (overlongStored note).write.length = note.length + 23 := by
  simp [overlongStored, CodeAttribute.write, Bytes.counted, Attribute.write, Bytes.u16, Bytes.u32,
    Bytes.length_number]
  omega

theorem stored_overlongClass (h : note.length + 21 < 2 ^ 32) : (overlongClass note).Stored := by
  refine ⟨stored_sampleClass.pool, stored_sampleClass.interfaces, stored_sampleClass.fields,
    ⟨by simp [overlongClass], fun m hm => ?_⟩, stored_sampleClass.attributes⟩
  obtain rfl := List.mem_singleton.1 hm
  refine ⟨by simp, fun a ha => ?_⟩
  obtain rfl := List.mem_singleton.1 ha
  unfold Attribute.Fits
  rw [length_overlongCode]
  exact h

theorem overlongBody_events : (overlongBody note).events = (overlongEvents note, none) := by
  rw [Body.events_eq_of_attached [(0, .plain (.load .int 0), []),
    (1, .plain (.nullary .pop), []), (2, .branch (.exit .returnVoid), [])] rfl,
    Body.eventsWith]
  simp only [List.flatMap_cons, Body.eventsAt_eq, Body.lastEvents_eq]
  rfl

theorem overlongClass_script (h : note.length + 21 < 2 ^ 32) :
    (overlongClass note).script =
      ⟨classEvents sampleDeclaration [] [(sampleMethod, overlongEvents note)] [], none⟩ := by
  refine ClassFile.script_of_reads (d := sampleDeclaration) rfl (.cons ?_ .nil)
  refine ⟨some ⟨5, (overlongCode note).write⟩, rfl, overlongBody note, ?_, overlongBody_events⟩
  refine Body.read_eq_ok (c := overlongCode note) (CodeAttribute.read_write ?_) rfl ?_
  · have hcode : sampleCode.code.length < 2 ^ 32 := by decide
    refine ⟨hcode, ⟨Nat.zero_le _, by simp [overlongCode, sampleCode]⟩, by simp [overlongCode], ?_⟩
    intro a ha
    obtain rfl := List.mem_singleton.1 ha
    unfold Attribute.Fits
    dsimp only
    omega
  · have hstarts : (overlongBody note).starts = [0, 1, 2] := rfl
    have hlength : (overlongBody note).length = 3 := rfl
    refine ⟨?_, ?_, fun o ho => by cases ho⟩
    · rw [hstarts]
      decide
    · rw [hstarts, hlength]
      decide

theorem overlongClass_run (note : Bytes) : ∃ i, Stage.run ClassInjection.step (.ofOptions .standard)
    (classEvents sampleDeclaration [] [(sampleMethod, overlongEvents note)] []) =
      (i, classEvents sampleDeclaration [] [(sampleMethod, overlongSent note)] [], none) := by
  let front : List ClassEvent := [.classStart sampleDeclaration, .methodStart sampleMethod,
    .body (.start 1 1), .body (.operation (.plain (.load .int 0))),
    .body (.operation (.plain (.nullary .pop))),
    .body (.operation (.branch (.exit .returnVoid)))]
  have hevents : classEvents sampleDeclaration [] [(sampleMethod, overlongEvents note)] [] =
      front ++ .body (.attribute ⟨3, note⟩) :: [.body (.limits 1 1), .methodEnd, .classEnd] := rfl
  rw [hevents]
  -- the injection keeps nothing of the attribute
  exact ⟨_, Stage.run_append.2 ⟨(Stage.run ClassInjection.step (.ofOptions .standard) front).1,
    _, _, rfl, Stage.run_cons.2 ⟨rfl, _, rfl, rfl⟩, rfl⟩⟩

theorem overlongClass_feed : ClassBuilder.receive.feed .empty
    (classEvents sampleDeclaration [] [(sampleMethod, overlongSent note)] []) =
      (⟨some (overlongBuilt note), none, true⟩, none) := by
  have hclose := ClassBuilder.closeMethod_of_assemble (m := ⟨.ofBits 8, 3, 4, []⟩)
    (f := { sampleClass with methods := #[] }) (c := overlongStored note)
    (d := (overlongSent note).foldl Draft.push (.empty 1 1)) rfl textIndex_sampleClass
  have hevents : classEvents sampleDeclaration [] [(sampleMethod, overlongSent note)] [] =
      (.classStart sampleDeclaration :: .methodStart sampleMethod ::
        (overlongSent note).map .body) ++ [.methodEnd, .classEnd] := rfl
  rw [hevents, Sink.feed_append]
  exact ⟨_, rfl, Sink.feed_cons.2 ⟨_, hclose, rfl⟩⟩

/-- What comes out starts with this class, since its length 0 is written for the body. -/
theorem write_overlongBuilt (h : note.length + 23 = 2 ^ 32) :
    ∃ more, more ≠ [] ∧ (overlongBuilt note).write = shornClass.write ++ more := by
  have hlength : UInt32.ofNat (overlongStored note).write.length = 0 := by
    rw [length_overlongStored, h]
    rfl
  have hbody : (overlongStored note).write = Bytes.u16 1 ++ Bytes.u16 2 ++ Bytes.u32 5 ++
      [0x02, 0x3c, 0x1a, 0x57, 0xb1] ++ Bytes.counted Handler.write [] ++
      Bytes.counted Attribute.write [⟨3, note⟩] := rfl
  refine ⟨Bytes.counted Handler.write [] ++ Bytes.counted Attribute.write [⟨3, note⟩] ++
    Bytes.counted Attribute.write [], ?_, ?_⟩
  · simp [Bytes.counted, Bytes.u16, Bytes.number]
  · simp only [ClassFile.write, overlongBuilt, sampleClass, Bytes.counted, Member.write,
      shornClass, Attribute.write, hlength, List.flatMap_cons, List.flatMap_nil, List.append_nil,
      List.append_assoc, List.append_cancel_left_eq]
    rw [hbody]
    simp only [Bytes.counted, Attribute.write, List.flatMap_cons, List.flatMap_nil,
      List.append_nil, List.append_assoc]
    rfl

theorem withFreshLocals_overlong (h : note.length + 23 = 2 ^ 32) :
    withFreshLocals .standard (overlongClass note).write = .ok (overlongBuilt note).write := by
  obtain ⟨i, hrun⟩ := overlongClass_run note
  exact withFreshLocals_of_run (ClassFile.read_write (stored_overlongClass (by omega)))
    (overlongClass_script (by omega)) hrun overlongClass_feed rfl

end Overlong

/-- **The bound of 32 bits is needed.** A method with three bytes of code has an attribute of
4294967273 bytes. With the new variable its body is 2 ^ 32 bytes long, and all its lists are short.
The class comes out, but what comes out is no class. -/
theorem withFreshLocals_unreadable :
    let note : Bytes := List.replicate 4294967273 0
    ClassFile.read (overlongClass note).write = .ok (overlongClass note) ∧
      withFreshLocals .standard (overlongClass note).write = .ok (overlongBuilt note).write ∧
      (∃ i, Stage.run ClassInjection.step (.ofOptions .standard)
        (overlongClass note).script.events =
          (i, classEvents sampleDeclaration [] [(sampleMethod, overlongSent note)] [], none)) ∧
      BodyEvent.Bounded (overlongSent note) ∧
      ClassFile.read (overlongBuilt note).write =
        .error (.decode (.trailingBytes "ClassFile")) := by
  intro note
  have hlength : note.length = 4294967273 := List.length_replicate
  -- nothing but the length of the attribute matters
  clear_value note
  have hfits : note.length + 21 < 2 ^ 32 := by omega
  have hfull : note.length + 23 = 2 ^ 32 := by omega
  refine ⟨ClassFile.read_write (stored_overlongClass hfits), withFreshLocals_overlong hfull, ?_,
    ?_, ?_⟩
  · rw [overlongClass_script hfits]
    exact overlongClass_run note
  · exact BodyEvent.bounded_of_length (by simp [overlongSent]) (by simp [overlongSent])
  · obtain ⟨more, hmore, hwrite⟩ := write_overlongBuilt hfull
    rw [hwrite]
    exact ClassFile.read_append (ClassFile.read_write stored_shornClass) hmore

end FreshLocal
