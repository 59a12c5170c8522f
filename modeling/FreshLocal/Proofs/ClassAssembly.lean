import FreshLocal.ClassBuilder
import FreshLocal.Proofs.BodyAssembly
import FreshLocal.Proofs.ClassRun
import FreshLocal.Proofs.DescriptorText
import FreshLocal.Proofs.StorableInjection

/-!
# Classes are built

The builder stores one method after the other, and the pool grows with each of
them. What stood in the pool before keeps its index, so a method that was stored
early is still read back with the pool that there is in the end.

* `ClassBuilder.complete_cases`: what becomes of a method with a body.
* `Method.split_grows`: the declaration of a method, read with a pool that has grown.
* `Method.Writable`: a method that the builder gets.
* `Method.Stores`, `Method.Written`: a method that it stored.
* `ClassBuilder.Builds`: methods that are built while the pool grows.
* `ClassBuilder.feed_classEvents`: **what the builder makes of the events of a class**.
* `ClassBuilder.feed_class`: the methods of a class are stored.
-/

namespace FreshLocal

variable {pool pool' : ConstantPool} {m : Method} {x : SentMethod}

/-- Does the attribute hold the body of a method? -/
def Attribute.HoldsBody (pool : ConstantPool) (a : Attribute) : Prop :=
  pool.utf8 a.name = .ok CodeAttribute.name

/-- **A method with a body** gets an attribute in front of its others. -/
theorem ClassBuilder.complete_cases {m' : Method} {d : Draft}
    (h : (complete m (some d)).run pool = .ok m' pool') :
    ∃ c p index, d.assemble.run pool = .ok c p ∧
      (ConstantPool.textIndex CodeAttribute.name).run p = .ok index pool' ∧
      m' = { m with attributes := ⟨index, c.write⟩ :: m.attributes } := by
  obtain ⟨c, p, hc, h⟩ := PoolM.bind_eq_ok.1 h
  obtain ⟨a, p', ha, h⟩ := PoolM.bind_eq_ok.1 h
  obtain ⟨rfl, rfl⟩ := PoolM.pure_eq_ok.1 h
  obtain ⟨index, p'', hindex, ha⟩ := PoolM.bind_eq_ok.1 ha
  obtain ⟨rfl, rfl⟩ := PoolM.pure_eq_ok.1 ha
  exact ⟨c, p, index, hc, hindex, rfl⟩

namespace Method

theorem splitCodeOnto_grows {as done : List Attribute} {r : Option Attribute × List Attribute}
    (hpool : pool.Grows pool') (h : splitCodeOnto pool as done = .ok r) :
    splitCodeOnto pool' as done = .ok r := by
  induction as generalizing done with
  | nil => exact h
  | cons a as ih =>
    obtain ⟨name, hname, h⟩ := Except.bind_eq_ok.1 h
    refine Except.bind_eq_ok.2 ⟨name, hpool.utf8 hname, ?_⟩
    split at h
    · rename_i hcode; rw [if_pos hcode]; exact h
    · rename_i hcode; rw [if_neg hcode]; exact ih h

/-- No attribute is lost when the one that holds the body is taken out. -/
theorem splitCodeOnto_eq_ok {as done rest : List Attribute} {code : Option Attribute}
    (h : splitCodeOnto pool as done = .ok (code, rest)) :
    code.toList.length + rest.length = done.length + as.length ∧
      (∀ a ∈ rest, a ∈ done ∨ a ∈ as) ∧ (code = none → rest = done.reverse ++ as) := by
  induction as generalizing done with
  | nil =>
    cases h
    exact ⟨by simp, fun a ha => .inl (List.mem_reverse.1 ha), fun _ => by simp⟩
  | cons a as ih =>
    obtain ⟨name, hname, h⟩ := Except.bind_eq_ok.1 h
    split at h
    · cases h
      refine ⟨by simp; omega, fun b hb => ?_, fun hnone => by cases hnone⟩
      obtain hb | hb := List.mem_append.1 hb
      · exact .inl (List.mem_reverse.1 hb)
      · exact .inr (List.mem_cons_of_mem _ hb)
    · obtain ⟨hlength, hmem, hnone⟩ := ih h
      refine ⟨by rw [hlength]; simp; omega, fun b hb => ?_, fun hcode => by simp [hnone hcode]⟩
      obtain hb | hb := hmem b hb
      · obtain rfl | hb := List.mem_cons.1 hb
        · exact .inr List.mem_cons_self
        · exact .inl hb
      · exact .inr (List.mem_cons_of_mem _ hb)

/-- What the declaration of a method says. -/
theorem split_eq_ok {d : MethodDeclaration} {code : Option Attribute}
    (h : split pool m = .ok (d, code)) : d.flags = m.flags ∧ d.nameIndex = m.name ∧
      d.descriptorIndex = m.descriptor ∧ splitCode pool m.attributes = .ok (code, d.attributes) ∧
      pool.utf8 m.descriptor = .ok d.descriptor.render := by
  obtain ⟨name, hname, h⟩ := Except.bind_eq_ok.1 h
  obtain ⟨descriptor, hdescriptor, h⟩ := Except.bind_eq_ok.1 h
  obtain ⟨⟨code', attributes⟩, hcode, h⟩ := Except.bind_eq_ok.1 h
  obtain ⟨name', hname', h⟩ := Except.bind_eq_ok.1 h
  obtain ⟨parsed, hparsed, h⟩ := Except.bind_eq_ok.1 h
  cases h
  refine ⟨rfl, rfl, rfl, Except.mapError_eq_ok.1 hcode, ?_⟩
  rw [MethodDescriptor.parse_eq_ok (Except.mapError_eq_ok.1 hparsed)]
  exact Except.mapError_eq_ok.1 hdescriptor

/-- **A declaration is read with a pool that has grown**, whatever became of the attributes. -/
theorem split_grows {d : MethodDeclaration} {code code' : Option Attribute}
    {attributes : List Attribute} (hpool : pool.Grows pool') (h : split pool m = .ok (d, code))
    (hcode : splitCode pool' attributes = .ok (code', d.attributes)) :
    split pool' ⟨m.flags, m.name, m.descriptor, attributes⟩ = .ok (d, code') := by
  obtain ⟨name, hname, h⟩ := Except.bind_eq_ok.1 h
  obtain ⟨descriptor, hdescriptor, h⟩ := Except.bind_eq_ok.1 h
  obtain ⟨_, -, h⟩ := Except.bind_eq_ok.1 h
  obtain ⟨name', hname', h⟩ := Except.bind_eq_ok.1 h
  obtain ⟨parsed, hparsed, h⟩ := Except.bind_eq_ok.1 h
  cases h
  refine Except.bind_eq_ok.2 ⟨name, Except.mapError_eq_ok.2
    (hpool.utf8 (Except.mapError_eq_ok.1 hname)), ?_⟩
  refine Except.bind_eq_ok.2 ⟨descriptor, Except.mapError_eq_ok.2
    (hpool.utf8 (Except.mapError_eq_ok.1 hdescriptor)), ?_⟩
  refine Except.bind_eq_ok.2 ⟨_, Except.mapError_eq_ok.2 hcode, ?_⟩
  exact Except.bind_eq_ok.2 ⟨name', hname', Except.bind_eq_ok.2 ⟨parsed, hparsed, rfl⟩⟩

/-- A method that the builder gets: of a stored method its declaration, and a body that can be
stored if the method has one. -/
def Writable (pool : ConstantPool) (m : Method) (x : SentMethod) : Prop :=
  (split pool m = .ok (x.1, none) ∧ x.2 = []) ∨
    ∃ code maxStack maxLocals behind, split pool m = .ok (x.1, some code) ∧
      x.2 = .start maxStack maxLocals :: behind ∧ (∀ e ∈ behind, ¬ e.IsStart) ∧
      BodyEvent.StorableAll pool x.2

/-- **What the injection makes of a method that was read** can be stored. -/
theorem Reads.writable {options : Options} {name : BinaryName} {x' : SentMethod}
    (hpool : pool.Stored) (hname : ShortText name.text) (h : m.Reads pool x)
    (hx : ClassInjection.Injected options name x x') : m.Writable pool x' := by
  obtain ⟨d, events⟩ := x
  obtain ⟨d', events'⟩ := x'
  obtain ⟨rfl, i, hrun⟩ := hx
  obtain ⟨code, hsplit, hcode⟩ := h
  cases code with
  | none =>
    obtain rfl : events = [] := hcode
    exact .inl ⟨hsplit, (Stage.run_nil.1 hrun).2⟩
  | some code =>
    obtain ⟨b, hread, hevents⟩ := hcode
    have hreadable := Body.readable_of_read hpool hread
    have hstorable := hreadable.storableAll (by rw [hevents])
    obtain ⟨rest, hrest, hstart⟩ := b.events_eq
    rw [hrest] at hstorable
    have hevents' : events = b.events.1 := by rw [hevents]
    rw [hevents', hrest] at hrun
    have hshort := (DeclaredMethod.ofDeclaration d' name).shortName_implicit hname
      (hpool.shortText (split_eq_ok hsplit).2.2.2.2)
    obtain ⟨behind, hsent, hbehind, hall⟩ :=
      MethodInjection.storableAll_run hshort hstart hstorable hrun
    exact .inr ⟨code, _, _, behind, hsplit, hsent, hbehind, hall⟩

/-- **What a method holds of what was sent**: the declaration, and the body, if one was sent. The
body is in the attribute in front of the others, and its code and its tables have the content of the
events. -/
def Stores (pool : ConstantPool) (m : Method) (x : SentMethod) : Prop :=
  (split pool m = .ok (x.1, none) ∧ x.2 = []) ∨
    ∃ a c b, split pool m = .ok (x.1, some a) ∧ m.attributes = a :: x.1.attributes ∧
      a.body = c.write ∧ Body.ofAttribute pool c = .ok b ∧ b.events.2 = none ∧
      x.Same (x.1, b.events.1)

/-- **A method that was stored**: with a pool that has grown it holds what was sent, and it is read
as something that says the same. Only the attribute with its body is new, so that only this one may
be too long. -/
structure Written (pool : ConstantPool) (m : Method) (x : SentMethod) : Prop where
  count : m.attributes.length ≤ 65535
  fits : ∀ a ∈ m.attributes, a.Fits ∨ a.HoldsBody pool
  stores : ∀ P, pool.Grows P → m.Stores P x
  reads : (∀ a ∈ m.attributes, a.Fits) → ∀ P, pool.Grows P → ∃ y, m.Reads P y ∧ x.Same y

theorem Written.grows (h : m.Written pool x) (hpool : pool.Grows pool') : m.Written pool' x :=
  ⟨h.count, fun a ha => (h.fits a ha).imp_right hpool.utf8,
    fun P hP => h.stores P (hpool.trans hP), fun hfits P hP => h.reads hfits P (hpool.trans hP)⟩

/-- **A method without a body** that was stored. -/
theorem written_of_none (hm : m.Fits) (hsplit : split pool m = .ok (x.1, none)) (hx : x.2 = [])
    (hpool : pool.Grows pool') :
    Written pool' ⟨x.1.flags, x.1.nameIndex, x.1.descriptorIndex, x.1.attributes⟩ x := by
  obtain ⟨hflags, hname, hdescriptor, hcode, -⟩ := split_eq_ok hsplit
  obtain ⟨-, -, hnone⟩ := splitCodeOnto_eq_ok hcode
  have hattributes : x.1.attributes = m.attributes := by rw [hnone rfl]; rfl
  rw [hflags, hname, hdescriptor, hattributes]
  have hsplit' : ∀ P, pool'.Grows P →
      split P ⟨m.flags, m.name, m.descriptor, m.attributes⟩ = .ok (x.1, none) := by
    intro P hP
    have hcode' := splitCodeOnto_grows (hpool.trans hP) hcode
    rw [← hattributes] at hcode' ⊢
    exact split_grows (hpool.trans hP) hsplit hcode'
  refine ⟨hm.1, fun a ha => .inl (hm.2 a ha), fun P hP => .inl ⟨hsplit' P hP, hx⟩,
    fun _ P hP => ⟨(x.1, []), ⟨none, hsplit' P hP, rfl⟩, rfl, ?_⟩⟩
  rw [hx]
  exact ⟨_, rfl, rfl⟩

/-- **A method with a body** that was stored. -/
theorem written_of_complete {p : ConstantPool} {code : Attribute} {d : Draft} {m' : Method}
    (hm : m.Fits) (hsplit : split p m = .ok (x.1, some code)) (hall : BodyEvent.StorableAll p x.2)
    (hbound : BodyEvent.Bounded x.2) (hd : d.Holds x.2) (hp : p.Grows pool) (hpool : pool.Stored)
    (h : (ClassBuilder.complete
      ⟨x.1.flags, x.1.nameIndex, x.1.descriptorIndex, x.1.attributes⟩ (some d)).run pool =
        .ok m' pool') :
    pool.Grows pool' ∧ pool'.Stored ∧ m'.Written pool' x := by
  obtain ⟨hflags, hname, hdescriptor, hcode, -⟩ := split_eq_ok hsplit
  obtain ⟨hcount, hmem, -⟩ := splitCodeOnto_eq_ok hcode
  obtain ⟨c, pool₁, index, hc, hindex, rfl⟩ := ClassBuilder.complete_cases h
  obtain ⟨hgrows₁, hpool₁, b, hnone, hcontent, hread⟩ :=
    Draft.read_assembled hd hpool (hall.grows hp) hbound hc
  obtain ⟨hgrows₂, hpool₂, hutf8⟩ := ConstantPool.textIndex_eq_ok hpool₁
    CodeAttribute.shortText_name hindex
  have hsame : x.Same (x.1, b.events.1) := ⟨rfl, _, hall.ofEvents?, hcontent.trans hall.ofEvents?⟩
  have hsplit' : ∀ P, pool'.Grows P → split P ⟨x.1.flags, x.1.nameIndex, x.1.descriptorIndex,
      ⟨index, c.write⟩ :: x.1.attributes⟩ = .ok (x.1, some ⟨index, c.write⟩) := by
    intro P hP
    rw [hflags, hname, hdescriptor]
    exact split_grows (((hp.trans hgrows₁).trans hgrows₂).trans hP) hsplit
      (Except.bind_eq_ok.2 ⟨_, hP.utf8 hutf8, by rw [if_pos rfl]; rfl⟩)
  refine ⟨hgrows₁.trans hgrows₂, hpool₂, ?_, fun a ha => ?_, fun P hP => ?_, fun hfits P hP => ?_⟩
  · have hbefore := hm.1
    simp only [Option.toList_some, List.length_cons, List.length_nil] at hcount ⊢
    omega
  · obtain rfl | ha := List.mem_cons.1 ha
    · exact .inr hutf8
    · obtain hdone | ha := hmem a ha
      · cases hdone
      · exact .inl (hm.2 a ha)
  · obtain ⟨hbody, -⟩ := hread P (hgrows₂.trans hP)
    exact .inr ⟨⟨index, c.write⟩, c, b, hsplit' P hP, rfl, rfl, hbody, hnone, hsame⟩
  · obtain ⟨-, hbody⟩ := hread P (hgrows₂.trans hP)
    exact ⟨(x.1, b.events.1), ⟨some ⟨index, c.write⟩, hsplit' P hP, b,
      hbody (hfits _ List.mem_cons_self), Prod.ext rfl hnone⟩, hsame⟩

end Method

namespace ClassBuilder

variable {f : ClassFile} {b : ClassBuilder}

/-- Fields are kept in their order. -/
theorem feed_fields {fields : List Field}
    (h : Sink.feed receive ⟨some f, none, false⟩ (fields.map .field) = (b, none)) :
    b = ⟨some { f with fields := f.fields ++ fields }, none, false⟩ := by
  induction fields generalizing f with
  | nil => cases h; simp
  | cons x fields ih =>
    obtain ⟨b', hb, h⟩ := Sink.feed_cons.1 h
    cases hb
    rw [ih h]
    simp

/-- Attributes are kept in their order. -/
theorem feed_attributes {attributes : List Attribute}
    (h : Sink.feed receive ⟨some f, none, false⟩ (attributes.map .attribute) = (b, none)) :
    b = ⟨some { f with attributes := f.attributes ++ attributes }, none, false⟩ := by
  induction attributes generalizing f with
  | nil => cases h; simp
  | cons x attributes ih =>
    obtain ⟨b', hb, h⟩ := Sink.feed_cons.1 h
    cases hb
    rw [ih h]
    simp

/-- The events of a body are collected. -/
theorem feed_push {d : Draft} {events : List BodyEvent} (hevents : ∀ e ∈ events, ¬ e.IsStart) :
    Sink.feed receive ⟨some f, some (m, some d), false⟩ (events.map .body) =
      (⟨some f, some (m, some (events.foldl Draft.push d)), false⟩, none) := by
  induction events generalizing d with
  | nil => rfl
  | cons e events ih =>
    have hstep : receive ⟨some f, some (m, some d), false⟩ (.body e) =
        (⟨some f, some (m, some (d.push e)), false⟩, none) := by
      have he := hevents e (by simp)
      cases e with
      | start _ _ => exact absurd trivial he
      | _ => rfl
    exact Sink.feed_cons.2 ⟨_, hstep, ih fun e he => hevents e (by simp [he])⟩

/-- **A draft holds the events of a body** that the builder took. -/
theorem feed_body {d : Draft} {before events : List BodyEvent} (hd : d.Holds before)
    (hevents : ∀ e ∈ events, ¬ e.IsStart)
    (h : Sink.feed receive ⟨some f, some (m, some d), false⟩ (events.map .body) = (b, none)) :
    ∃ d', d'.Holds (before ++ events) ∧ b = ⟨some f, some (m, some d'), false⟩ := by
  rw [feed_push hevents] at h
  cases h
  exact ⟨_, hd.foldl events, rfl⟩

/-- What the builder has of the body of a method when the method ends. -/
def Drafted (events : List BodyEvent) : Option Draft → Prop
  | none => events = []
  | some d => events ≠ [] ∧ d.Holds events

/-- A method has a body and a draft of it, or neither. -/
theorem Drafted.cases {m : Method} {x : SentMethod} {draft : Option Draft}
    (hdraft : Drafted x.2 draft) (hx : m.Writable pool x) :
    (draft = none ∧ x.2 = [] ∧ Method.split pool m = .ok (x.1, none)) ∨
      ∃ d code, draft = some d ∧ d.Holds x.2 ∧ Method.split pool m = .ok (x.1, some code) ∧
        BodyEvent.StorableAll pool x.2 := by
  obtain ⟨hsplit, hnone⟩ | ⟨code, maxStack, maxLocals, behind, hsplit, hstart, -, hall⟩ := hx
  · cases draft with
    | none => exact .inl ⟨rfl, hnone, hsplit⟩
    | some d => exact absurd hnone hdraft.1
  · cases draft with
    | none =>
      rw [Drafted, hstart] at hdraft
      cases hdraft
    | some d => exact .inr ⟨d, code, rfl, hdraft.2, hsplit, hall⟩

/-- The method of a declaration, without its body. -/
def ofMethodDeclaration (d : MethodDeclaration) : Method :=
  ⟨d.flags, d.nameIndex, d.descriptorIndex, d.attributes⟩

/-- **Methods are built** one after the other, each with the pool that the one before left. -/
inductive Builds : ConstantPool → List SentMethod → List Method → ConstantPool → Prop
  | nil (pool : ConstantPool) : Builds pool [] [] pool
  | cons {x : SentMethod} {xs : List SentMethod} {m : Method} {ms : List Method}
      {pool₁ pool₂ pool₃ : ConstantPool} {draft : Option Draft} (hdraft : Drafted x.2 draft)
      (hm : (complete (ofMethodDeclaration x.1) draft).run pool₁ = .ok m pool₂)
      (rest : Builds pool₂ xs ms pool₃) : Builds pool₁ (x :: xs) (m :: ms) pool₃

/-- A method without a body has no events, and a body starts once. -/
def StartsOnce (events : List BodyEvent) : Prop :=
  events = [] ∨ ∃ maxStack maxLocals behind,
    events = .start maxStack maxLocals :: behind ∧ ∀ e ∈ behind, ¬ e.IsStart

/-- **A method** that the builder took is completed. -/
theorem feed_method (hx : StartsOnce x.2)
    (h : Sink.feed receive ⟨some f, none, false⟩ (methodEvents x) = (b, none)) :
    ∃ draft m' pool, Drafted x.2 draft ∧
      (complete (ofMethodDeclaration x.1) draft).run f.pool = .ok m' pool ∧
      b = ⟨some { f with pool, methods := f.methods.push m' }, none, false⟩ := by
  obtain ⟨b₁, hb₁, h⟩ := Sink.feed_cons.1 h
  cases hb₁
  obtain ⟨b₂, hbody, h⟩ := Sink.feed_append.1 h
  obtain ⟨b₃, hclose, h⟩ := Sink.feed_cons.1 h
  cases h
  obtain ⟨draft, hdraft, rfl⟩ : ∃ draft, Drafted x.2 draft ∧
      b₂ = ⟨some f, some (ofMethodDeclaration x.1, draft), false⟩ := by
    obtain hnone | ⟨maxStack, maxLocals, behind, hstart, hbehind⟩ := hx
    · rw [hnone] at hbody
      cases hbody
      exact ⟨none, hnone, rfl⟩
    · rw [hstart, List.map_cons] at hbody
      obtain ⟨b₄, hopen, hbody⟩ := Sink.feed_cons.1 hbody
      cases hopen
      obtain ⟨d, hd, rfl⟩ := feed_body (Draft.holds_empty maxStack maxLocals) hbehind hbody
      rw [List.singleton_append, ← hstart] at hd
      exact ⟨some d, ⟨by rw [hstart]; simp, hd⟩, rfl⟩
  have hstep : closeMethod ⟨some f, some (ofMethodDeclaration x.1, draft), false⟩ = (b, none) :=
    hclose
  unfold closeMethod at hstep
  dsimp only at hstep
  split at hstep
  · rename_i m' pool hcomplete
    cases hstep
    exact ⟨draft, m', pool, hdraft, hcomplete, rfl⟩
  · cases hstep

/-- A method whose body can be stored is closed with the body in front of its attributes. -/
theorem closeMethod_of_assemble {p : ConstantPool} {d : Draft} {c : CodeAttribute}
    {index : PoolIndex} (hc : d.assemble.run f.pool = .ok c p)
    (hindex : (ConstantPool.textIndex CodeAttribute.name).run p = .ok index pool') :
    closeMethod ⟨some f, some (m, some d), false⟩ =
      (⟨some { f with
          pool := pool'
          methods := f.methods.push { m with attributes := ⟨index, c.write⟩ :: m.attributes } },
        none, false⟩, none) := by
  have hcomplete : (complete m (some d)).run f.pool =
      .ok { m with attributes := ⟨index, c.write⟩ :: m.attributes } pool' :=
    PoolM.bind_eq_ok.2 ⟨c, p, hc, PoolM.bind_eq_ok.2 ⟨⟨index, c.write⟩, pool',
      PoolM.bind_eq_ok.2 ⟨index, pool', hindex, rfl⟩, rfl⟩⟩
  unfold closeMethod
  dsimp only
  rw [hcomplete]

/-- **All methods**, one after the other. -/
theorem feed_methods {xs : List SentMethod} (hx : ∀ x ∈ xs, StartsOnce x.2)
    (h : Sink.feed receive ⟨some f, none, false⟩ (xs.flatMap methodEvents) = (b, none)) :
    ∃ (pool : ConstantPool) (ms' : List Method), Builds f.pool xs ms' pool ∧
      b = ⟨some { f with pool, methods := f.methods ++ ms' }, none, false⟩ := by
  induction xs generalizing f with
  | nil =>
    cases h
    exact ⟨f.pool, [], .nil _, by simp⟩
  | cons x xs ih =>
    rw [List.flatMap_cons] at h
    obtain ⟨b₁, hmethod, h⟩ := Sink.feed_append.1 h
    obtain ⟨draft, m', pool₁, hdraft, hm', rfl⟩ := feed_method (hx x List.mem_cons_self) hmethod
    obtain ⟨pool, ms', hrest, rfl⟩ := ih (fun x hx' => hx x (List.mem_cons_of_mem _ hx')) h
    exact ⟨pool, m' :: ms', .cons hdraft hm' hrest, by simp⟩

/-- **The class that was built** has what was sent outside of the bodies, and the methods that were
built. -/
theorem feed_classEvents {c : ClassDeclaration} {fields : List Field} {attributes : List Attribute}
    {xs : List SentMethod} (hx : ∀ x ∈ xs, StartsOnce x.2)
    (h : Sink.feed receive .empty (classEvents c fields xs attributes) = (b, none)) :
    ∃ (pool : ConstantPool) (ms' : List Method), Builds c.pool xs ms' pool ∧
      b.file = some { ofDeclaration c with
        pool, fields := fields.toArray, methods := ms'.toArray
        attributes := attributes.toArray } := by
  obtain ⟨b₁, hb₁, h⟩ := Sink.feed_cons.1 h
  cases hb₁
  obtain ⟨b₂, hfields, h⟩ := Sink.feed_append.1 h
  obtain rfl := feed_fields hfields
  obtain ⟨b₃, hmethods, h⟩ := Sink.feed_append.1 h
  obtain ⟨pool, ms', hbuilds, rfl⟩ := feed_methods hx hmethods
  obtain ⟨b₄, hattributes, h⟩ := Sink.feed_append.1 h
  obtain rfl := feed_attributes hattributes
  obtain ⟨b₅, hend, h⟩ := Sink.feed_cons.1 h
  cases hend
  cases h
  exact ⟨pool, ms', hbuilds, by simp [ofDeclaration]⟩

/-- **Methods that were built** are stored. -/
theorem Builds.written {p pool pool' : ConstantPool} {ms ms' : List Method} {xs : List SentMethod}
    (h : Builds pool xs ms' pool') (hm : ∀ m ∈ ms, m.Fits)
    (hx : List.Forall₂ (Method.Writable p) ms xs) (hbound : ∀ x ∈ xs, BodyEvent.Bounded x.2)
    (hp : p.Grows pool) (hpool : pool.Stored) :
    pool.Grows pool' ∧ pool'.Stored ∧ List.Forall₂ (Method.Written pool') ms' xs := by
  induction h generalizing ms with
  | nil pool => exact ⟨.refl _, hpool, .nil⟩
  | @cons x xs m' ms' pool₁ pool₂ pool₃ draft hdraft hm' _ ih =>
    obtain _ | ⟨hfirst, hx⟩ := hx
    rename_i m ms
    have hone : pool₁.Grows pool₂ ∧ pool₂.Stored ∧ m'.Written pool₂ x := by
      have hfits := hm m List.mem_cons_self
      obtain ⟨rfl, hnone, hsplit⟩ | ⟨d, code, rfl, hd, hsplit, hall⟩ := hdraft.cases hfirst
      · obtain ⟨rfl, rfl⟩ := PoolM.pure_eq_ok.1 hm'
        exact ⟨.refl _, hpool, Method.written_of_none hfits hsplit hnone hp⟩
      · exact Method.written_of_complete hfits hsplit hall (hbound x List.mem_cons_self) hd hp hpool
          hm'
    obtain ⟨hgrows, hpool₂, hwritten⟩ := hone
    obtain ⟨hgrows', hstored, hrest⟩ := ih (fun m hm' => hm m (List.mem_cons_of_mem _ hm')) hx
      (fun x hx' => hbound x (List.mem_cons_of_mem _ hx')) (hp.trans hgrows) hpool₂
    exact ⟨hgrows.trans hgrows', hstored, .cons (hwritten.grows hgrows') hrest⟩

theorem startsOnce_of_writable {m : Method} (h : m.Writable pool x) : StartsOnce x.2 := by
  obtain ⟨-, hnone⟩ | ⟨-, maxStack, maxLocals, behind, -, hstart, hbehind, -⟩ := h
  · exact .inl hnone
  · exact .inr ⟨maxStack, maxLocals, behind, hstart, hbehind⟩

/-- **What the builder makes of a class.** -/
theorem feed_class {c : ClassDeclaration} {fields : List Field} {attributes : List Attribute}
    {ms : List Method} {xs : List SentMethod} (hpool : c.pool.Stored) (hm : ∀ m ∈ ms, m.Fits)
    (hx : List.Forall₂ (Method.Writable c.pool) ms xs)
    (hbound : ∀ x ∈ xs, BodyEvent.Bounded x.2)
    (h : Sink.feed receive .empty (classEvents c fields xs attributes) = (b, none)) :
    ∃ (pool : ConstantPool) (ms' : List Method), c.pool.Grows pool ∧ pool.Stored ∧
      List.Forall₂ (Method.Written pool) ms' xs ∧
      b.file = some { ofDeclaration c with
        pool, fields := fields.toArray, methods := ms'.toArray
        attributes := attributes.toArray } := by
  have hstarts : ∀ x ∈ xs, StartsOnce x.2 := fun x hx' =>
    have ⟨_, _, hwritable⟩ := exists_of_mem_right hx hx'
    startsOnce_of_writable hwritable
  obtain ⟨pool, ms', hbuilds, hfile⟩ := feed_classEvents hstarts h
  obtain ⟨hgrows, hstored, hwritten⟩ := hbuilds.written hm hx hbound (.refl _) hpool
  exact ⟨pool, ms', hgrows, hstored, hwritten, hfile⟩

theorem finish_eq_ok {bytes : Bytes} (h : b.finish = .ok bytes) :
    ∃ built, b.file = some built ∧ bytes = built.write := by
  unfold finish at h
  split at h
  · rename_i built hfile _
    cases h
    exact ⟨built, hfile, rfl⟩
  · cases h

end ClassBuilder

end FreshLocal
