import FreshLocal.Proofs.Fidelity

/-!
# The work method by method

The events of a class go through the injection into the builder one at a time,
and whichever of the three stops names the fault in its own way. Put together,
the work on a class is that on its methods one after the other: a body is read,
the injection goes over its events, and what it sends is stored with the pool
that the method before left. Here the work is written like this, as a recursion
over the methods, and it is shown to be the same.

* `Obstacle`: what stops the work, and on which method; `Obstacle.shown`: the
  fault that comes out.
* `ClassFile.withFreshLocals`: the work on a class, method by method.
* `Stages.send_body`, `Stages.send_method`, `Stages.send_class`: what the events of
  a body, of a method and of a class come to.
* `withFreshLocals_eq`: **the work on the events is the work method by method**.
-/

namespace FreshLocal

/-! ## The work as a recursion over the methods -/

/-- A part of the work on a body. -/
inductive BodyWork
  | reading | injecting | storing
deriving DecidableEq

/-- What stops the work on a class. -/
inductive Obstacle
  /-- A fault that has to do with none of the bodies. -/
  | outside (fault : Fault)
  /-- A fault of a part of the work on the body of a method. -/
  | body (d : MethodDeclaration) (work : BodyWork) (fault : Fault)

/-- The fault that comes out. A body is stored at the end of its method, and there nothing puts a
fault in the name of the method. -/
def Obstacle.shown : Obstacle → Fault
  | outside fault | body _ .storing fault => fault
  | body d .reading fault | body d .injecting fault => .inMethod d.title fault

/-- The draft of a body of which the events were sent. -/
def Draft.ofEvents (maxStack maxLocals : UInt16) (events : List BodyEvent) : Draft :=
  events.foldl push (empty maxStack maxLocals)

section Work

variable (options : Options) (name : BinaryName) (pool : ConstantPool)

/-- The draft of a body with a fresh variable. -/
def Body.draft (d : MethodDeclaration) (b : Body) : Except Obstacle Draft :=
  let sending := Stage.run MethodInjection.step
    (.ofAllocator (options.allocator (.ofDeclaration d name))) b.events.1
  match sending.2.2, b.events.2 with
  | some fault, _ => .error (.body d .injecting fault)
  | none, some cause => .error (.body d .reading (.decode cause))
  | none, none => .ok (.ofEvents b.maxStack b.maxLocals sending.2.1)

namespace MethodDeclaration

/-- The draft of the new body, if the method has a body. -/
def draft (d : MethodDeclaration) : Option Attribute → Except Obstacle (Option Draft)
  | none => .ok none
  | some code => do
    let b ← (Body.read pool code.body).mapError fun cause => .body d .reading (.decode cause)
    some <$> b.draft options name d

/-- The stored method, and the pool behind it. -/
def store (d : MethodDeclaration) (body : Option Draft) (grown : ConstantPool) :
    Except Obstacle (Method × ConstantPool) :=
  match (ClassBuilder.complete (ClassBuilder.ofMethodDeclaration d) body).run grown with
  | .ok m pool => .ok (m, pool)
  | .error fault _ => .error (.body d .storing fault)

end MethodDeclaration

/-- A method with a fresh variable, and the pool behind it; `grown` is the pool in front of it. -/
def Method.withFreshLocal (m : Method) (grown : ConstantPool) :
    Except Obstacle (Method × ConstantPool) := do
  let (d, code) ← (m.split pool).mapError .outside
  let body ← d.draft options name pool code
  d.store body grown

/-- All methods of a class, one after the other. -/
def Method.allWithFreshLocal : List Method → (grown : ConstantPool) →
    Except Obstacle (List Method × ConstantPool)
  | [], grown => .ok ([], grown)
  | m :: ms, grown => do
    let (m, grown) ← m.withFreshLocal options name pool grown
    let (ms, grown) ← allWithFreshLocal ms grown
    pure (m :: ms, grown)

/-- **A class with a fresh variable in every method** that has a body. -/
def ClassFile.withFreshLocals (c : ClassFile) : Except Obstacle ClassFile := do
  let d ← c.declaration.mapError .outside
  let (methods, pool) ← Method.allWithFreshLocal options d.name c.pool c.methods.toList c.pool
  pure { c with pool, methods := methods.toArray }

end Work

section Drafts

variable {options : Options} {name : BinaryName} {pool : ConstantPool} {d : MethodDeclaration}

/-- **A draft** comes from a run of the injection that takes all of the body. -/
theorem Body.draft_eq_ok {b : Body} {draft : Draft} (h : b.draft options name d = .ok draft) :
    b.events.2 = none ∧ ∃ i sent, Stage.run MethodInjection.step
        (.ofAllocator (options.allocator (.ofDeclaration d name))) b.events.1 = (i, sent, none) ∧
      draft = .ofEvents b.maxStack b.maxLocals sent := by
  unfold Body.draft at h
  dsimp only at h
  split at h
  · cases h
  · cases h
  · rename_i hrun hread
    cases h
    exact ⟨hread, _, _, Prod.ext rfl (Prod.ext rfl hrun), rfl⟩

theorem MethodDeclaration.draft_eq_ok {code : Attribute} {draft : Option Draft}
    (h : d.draft options name pool (some code) = .ok draft) :
    ∃ b new, Body.read pool code.body = .ok b ∧ b.draft options name d = .ok new ∧
      draft = some new := by
  obtain ⟨b, hb, h⟩ := Except.bind_eq_ok.1 h
  obtain ⟨new, hnew, rfl⟩ := Except.map_eq_ok.1 h
  exact ⟨b, new, Except.mapError_eq_ok.1 hb, hnew, rfl⟩

end Drafts

/-! ## Scripts in a row -/

/-- What a sink comes to, unless it refuses an event. -/
def settled {τ : Type} : τ × Option Fault → Except Fault τ
  | (t, none) => .ok t
  | (_, some fault) => .error fault

namespace Script

variable {τ : Type} {sink : Sink ClassEvent τ} {title : Option String} {t : τ}

/-- What a sink comes to when a script is sent; `title` is that of the method that is open. -/
def send (sink : Sink ClassEvent τ) (title : Option String) (s : Script) (t : τ) :
    Except Fault τ :=
  settled (deliverFrom sink s.fault title s.events t)

theorem settled_deliverFrom_append (end_ : Option Fault) (front behind : List ClassEvent) :
    settled (deliverFrom sink end_ title (front ++ behind) t) =
      settled (deliverFrom sink none title front t) >>= fun u =>
        settled (deliverFrom sink end_ (front.foldl openTitle title) behind u) := by
  induction front generalizing title t with
  | nil => rfl
  | cons e front ih =>
    rw [List.cons_append, deliverFrom, deliverFrom]
    rcases sink t e with ⟨u, _ | fault⟩
    · exact ih
    · rfl

/-- **Scripts in a row** are sent one after the other. -/
theorem send_concat (s : Script) (rest : List Script) :
    send sink title (concat (s :: rest)) t =
      send sink title s t >>= send sink (s.events.foldl openTitle title) (concat rest) := by
  -- a fault at the end of a script comes up behind its events
  have hsend : send sink title s t = settled (deliverFrom sink none title s.events t) >>= fun u =>
      settled (u, s.fault) := by
    have happend : settled (deliverFrom sink s.fault title (s.events ++ []) t) = _ :=
      settled_deliverFrom_append s.fault s.events []
    rw [List.append_nil] at happend
    exact happend
  rw [concat_cons]
  cases hfault : s.fault with
  | none =>
    rw [Option.isNone_none, if_pos rfl, send, settled_deliverFrom_append, hsend, hfault]
    cases settled (deliverFrom sink none title s.events t) <;> rfl
  | some fault =>
    rw [Option.isNone_some, if_neg Bool.false_ne_true, hsend, hfault]
    cases settled (deliverFrom sink none title s.events t) <;> rfl

/-- The events of a body are refused in the name of the method. -/
theorem deliverFrom_map_body (title : String) (end_ : Option Fault) {events : List BodyEvent}
    {u : τ} {refused : Option Fault} (h : sink.feed t (events.map .body) = (u, refused)) :
    deliverFrom sink end_ (some title) (events.map .body) t =
      (u, (refused.map (Fault.within title)).or end_) := by
  induction events generalizing t with
  | nil =>
    cases h
    rfl
  | cons e events ih =>
    rw [List.map_cons, Sink.feed] at h
    rw [List.map_cons, deliverFrom]
    rcases hsink : sink t (.body e) with ⟨t', _ | fault⟩
    · rw [hsink] at h
      exact ih h
    · rw [hsink] at h
      cases h
      rfl

end Script

/-! ## The events of a body -/

namespace MethodInjection

variable {i : MethodInjection} {events : List BodyEvent}

theorem not_isStart_run (he : ∀ e ∈ events, ¬ e.IsStart) :
    ∀ e ∈ (Stage.run step i events).2.1, ¬ e.IsStart := by
  induction events generalizing i with
  | nil => exact fun e h => (List.not_mem_nil h).elim
  | cons e events ih =>
    have hsent : ∀ x ∈ (step i e).events, ¬ x.IsStart := by
      obtain ⟨e', hevents, -, hcarried, -⟩ | ⟨hevents, -⟩ :=
        step_cases i (he e List.mem_cons_self)
      · rw [hevents]
        intro x hx
        rw [List.mem_singleton.1 hx]
        exact hcarried.not_isStart (he e List.mem_cons_self)
      · rw [hevents]
        exact fun x hx => (List.not_mem_nil hx).elim
    rw [Stage.run]
    cases (step i e).fault with
    | some fault => exact hsent
    | none =>
      intro x hx
      obtain hx | hx := List.mem_append.1 hx
      · exact hsent x hx
      · exact ih (fun y hy => he y (List.mem_cons_of_mem _ hy)) x hx

/-- **What is sent of a body** starts once, also if the injection stops. -/
theorem run_sent (i : MethodInjection) (he : ∀ e ∈ events, ¬ e.IsStart)
    (maxStack maxLocals : UInt16) :
    ∃ behind, (Stage.run step i (.start maxStack maxLocals :: events)).2.1 =
      .start maxStack maxLocals :: behind ∧ ∀ e ∈ behind, ¬ e.IsStart := by
  obtain ⟨setting, hstart, hsetting⟩ := step_start (i := i) maxStack maxLocals
  have hfront : ∀ e ∈ setting, ¬ e.IsStart := by
    intro e he
    obtain ⟨op, rfl⟩ := hsetting e he
    exact id
  rw [Stage.run, hstart]
  cases (step i (.start maxStack maxLocals)).fault with
  | some fault => exact ⟨setting, rfl, hfront⟩
  | none =>
    refine ⟨setting ++ _, rfl, fun e h => ?_⟩
    obtain h | h := List.mem_append.1 h
    · exact hfront e h
    · exact not_isStart_run he e h

end MethodInjection

/-! ## The stages -/

/-- What the injection in front of the builder keeps. -/
abbrev Stages := ClassInjection × ClassBuilder

namespace Stages

/-- The injection in front of the builder. -/
def sink : Sink ClassEvent Stages := ClassInjection.step.into ClassBuilder.receive

variable (options : Options) (name : BinaryName) (f : ClassFile)

/-- Between two methods; `f` is the class so far. -/
def between : Stages := (⟨options, some name, none⟩, ⟨some f, none, false⟩)

/-- Inside of a method; `i` is the injection into its body. -/
def inside (d : MethodDeclaration) (i : MethodInjection) (body : Option Draft) : Stages :=
  (⟨options, some name, some (d.title, i)⟩,
    ⟨some f, some (ClassBuilder.ofMethodDeclaration d, body), false⟩)

/-- Behind the end of the class. -/
def ended : Stages := (⟨options, some name, none⟩, ⟨some f, none, true⟩)

variable (d : MethodDeclaration) (title : Option String)

/-- Both stages take the events of a body up to the one that the injection refuses. -/
theorem feed_body (b : Body) (i : MethodInjection) :
    sink.feed (inside options name f d i none) (b.events.1.map .body) =
      (inside options name f d (Stage.run MethodInjection.step i b.events.1).1
          (some (.ofEvents b.maxStack b.maxLocals
            (Stage.run MethodInjection.step i b.events.1).2.1)),
        (Stage.run MethodInjection.step i b.events.1).2.2.map (.inMethod d.title)) := by
  refine Stage.feed_into_of_feed (ClassInjection.run_map_body b.events.1 rfl) ?_
  obtain ⟨rest, hstart, hrest⟩ := b.events_eq
  obtain ⟨behind, hsent, hbehind⟩ := MethodInjection.run_sent i hrest b.maxStack b.maxLocals
  rw [hstart, hsent, List.map_cons]
  exact Sink.feed_cons.2 ⟨_, rfl, ClassBuilder.feed_push hbehind⟩

/-- **The events of a body** come to its draft. -/
theorem send_body (pool : ConstantPool) (code : Attribute) : ∃ i,
    (Method.bodyScript pool d.title code).send sink (some d.title)
        (inside options name f d (.ofAllocator (options.allocator (.ofDeclaration d name))) none) =
      ((d.draft options name pool (some code)).mapError Obstacle.shown).map
        (inside options name f d i) := by
  obtain ⟨i, hi⟩ : ∃ i, i = MethodInjection.ofAllocator
    (options.allocator (.ofDeclaration d name)) := ⟨_, rfl⟩
  rw [← hi]
  simp only [Method.bodyScript, MethodDeclaration.draft]
  cases Body.read pool code.body with
  | error cause => exact ⟨i, rfl⟩
  | ok b =>
    have hdelivered := Script.deliverFrom_map_body d.title
      (b.events.2.map fun cause => .inMethod d.title (.decode cause))
      (feed_body options name f d b i)
    refine ⟨(Stage.run MethodInjection.step i b.events.1).1, ?_⟩
    show settled (Script.deliverFrom sink _ _ (b.events.1.map .body) _) =
      (Except.mapError Obstacle.shown (some <$> b.draft options name d)).map _
    rw [hdelivered]
    simp only [Body.draft, ← hi]
    -- the injection may stop, and behind the events the reader may
    cases (Stage.run MethodInjection.step i b.events.1).2.2 with
    | some fault => rfl
    | none => cases b.events.2 <;> rfl

/-- **The end of a method** stores it, and here the fault is not put in its name. -/
theorem send_methodEnd (i : MethodInjection) (body : Option Draft) :
    Script.send sink title ⟨[.methodEnd], none⟩ (inside options name f d i body) =
      ((d.store body f.pool).mapError Obstacle.shown).map fun x =>
        between options name { f with pool := x.2, methods := f.methods.push x.1 } := by
  let before : ClassBuilder := ⟨some f, some (ClassBuilder.ofMethodDeclaration d, body), false⟩
  have hsend : Script.send sink title ⟨[.methodEnd], none⟩ (inside options name f d i body) =
      settled ((⟨options, some name, none⟩, (ClassBuilder.closeMethod before).1),
        (ClassBuilder.closeMethod before).2) := by
    show settled (Script.deliverFrom _ _ _ _ _) = _
    simp only [Script.deliverFrom, sink, inside, Stage.into, ClassInjection.step, Step.deliver,
      Step.send, Step.deliverFrom, ClassBuilder.receive]
    rcases ClassBuilder.closeMethod before with ⟨b, _ | fault⟩ <;> rfl
  rw [hsend]
  simp only [before, ClassBuilder.closeMethod, MethodDeclaration.store]
  cases (ClassBuilder.complete (ClassBuilder.ofMethodDeclaration d) body).run f.pool <;> rfl

/-- **The events of a method** come to the stored method. -/
theorem send_method (pool : ConstantPool) (m : Method) :
    (m.script pool).send sink title (between options name f) =
      ((m.withFreshLocal options name pool f.pool).mapError Obstacle.shown).map fun x =>
        between options name { f with pool := x.2, methods := f.methods.push x.1 } := by
  unfold Method.script Method.withFreshLocal
  cases m.split pool with
  | error fault => rfl
  | ok x =>
    obtain ⟨d, code⟩ := x
    cases code with
    | none => exact send_methodEnd options name f d (some d.title) _ none
    | some code =>
      obtain ⟨i, hbody⟩ := send_body options name f d pool code
      have hstart : Script.send sink title ⟨[.methodStart d], none⟩ (between options name f) =
          .ok (inside options name f d
            (.ofAllocator (options.allocator (.ofDeclaration d name))) none) := rfl
      dsimp only
      rw [Script.send_concat, hstart]
      show Script.send sink (some d.title) (.concat [Method.bodyScript pool d.title code,
        ⟨[.methodEnd], none⟩]) _ = Except.map _ (Except.mapError Obstacle.shown
          (d.draft options name pool (some code) >>= fun body => d.store body f.pool))
      rw [Script.send_concat, hbody]
      cases d.draft options name pool (some code) with
      | error obstacle => rfl
      | ok body => exact send_methodEnd options name f d _ i body

/-- Fields are kept in their order. -/
theorem deliverFrom_fields (fields : List Field) :
    Script.deliverFrom sink none title (fields.map .field) (between options name f) =
      (between options name { f with fields := f.fields ++ fields }, none) := by
  induction fields generalizing f with
  | nil =>
    rw [Array.appendList_nil]
    rfl
  | cons x fields ih =>
    have hpush : f.fields.push x ++ fields = f.fields ++ (x :: fields) := by simp
    rw [← hpush]
    exact ih { f with fields := f.fields.push x }

/-- What stands behind the methods ends the class. -/
theorem deliverFrom_attributes (attributes : List Attribute) :
    Script.deliverFrom sink none title (attributes.map .attribute ++ [.classEnd])
        (between options name f) =
      (ended options name { f with attributes := f.attributes ++ attributes }, none) := by
  induction attributes generalizing f with
  | nil =>
    rw [Array.appendList_nil]
    rfl
  | cons x attributes ih =>
    have hpush : f.attributes.push x ++ attributes = f.attributes ++ (x :: attributes) := by simp
    rw [← hpush]
    exact ih { f with attributes := f.attributes.push x }

/-- **The events behind the fields** come to the stored methods, one after the other. -/
theorem send_methods (pool : ConstantPool) (ms : List Method) (attributes : List Attribute) :
    (Script.concat (ms.map (Method.script pool) ++
        [⟨attributes.map .attribute ++ [.classEnd], none⟩])).send sink title
          (between options name f) =
      ((Method.allWithFreshLocal options name pool ms f.pool).mapError Obstacle.shown).map
        fun x : List Method × ConstantPool => ended options name { f with
          pool := x.2, methods := f.methods ++ x.1, attributes := f.attributes ++ attributes } := by
  induction ms generalizing f title with
  | nil =>
    have hend := congrArg settled (deliverFrom_attributes options name f title attributes)
    have hlast : Script.concat [⟨attributes.map .attribute ++ [.classEnd], none⟩] =
        ⟨attributes.map .attribute ++ [.classEnd], none⟩ := by
      rw [Script.concat_eq (by simp)]
      simp
    rw [List.map_nil, List.nil_append, hlast]
    show _ = Except.ok (ended options name { f with
      methods := f.methods ++ ([] : List Method), attributes := f.attributes ++ attributes })
    rw [Array.appendList_nil]
    exact hend
  | cons m ms ih =>
    rw [List.map_cons, List.cons_append, Script.send_concat, send_method, Method.allWithFreshLocal]
    cases m.withFreshLocal options name pool f.pool with
    | error obstacle => rfl
    | ok x =>
      obtain ⟨m', grown⟩ := x
      refine (ih { f with pool := grown, methods := f.methods.push m' } _).trans ?_
      show ((Method.allWithFreshLocal options name pool ms grown).mapError _).map _ =
        ((Method.allWithFreshLocal options name pool ms grown >>= fun x =>
          pure (m' :: x.1, x.2)).mapError _).map _
      cases Method.allWithFreshLocal options name pool ms grown with
      | error obstacle => rfl
      | ok x =>
        show Except.ok _ = Except.ok _
        simp

/-- **The events of a class** come to the class with its stored methods. -/
theorem send_class (c : ClassFile) :
    (do let x ← c.script.send sink none (.ofOptions options, .empty); x.2.finish) =
      ((c.withFreshLocals options).mapError Obstacle.shown).map ClassFile.write := by
  unfold ClassFile.script ClassFile.withFreshLocals
  cases hd : c.declaration with
  | error fault => rfl
  | ok d =>
    obtain ⟨-, hdeclaration⟩ := ClassFile.declaration_eq_ok hd
    let opened : ClassFile :=
      { ClassBuilder.ofDeclaration d with fields := (#[] : Array Field) ++ c.fields.toList }
    have hstart : Script.send sink none ⟨.classStart d :: c.fields.toList.map .field, none⟩
        (.ofOptions options, .empty) = .ok (between options d.name opened) :=
      congrArg settled (deliverFrom_fields options d.name _ none c.fields.toList)
    have hmethods := fun title =>
      send_methods options d.name opened title c.pool c.methods.toList c.attributes.toList
    have hpool : opened.pool = c.pool := by
      show d.pool = c.pool
      rw [hdeclaration]
    rw [hpool] at hmethods
    dsimp only
    rw [List.cons_append, Script.send_concat, hstart]
    show (Script.send sink _ _ (between options d.name opened) >>= fun x : Stages => x.2.finish) =
      Except.map _ (Except.mapError _
        (Method.allWithFreshLocal options d.name c.pool c.methods.toList c.pool >>= fun x =>
          pure { c with pool := x.2, methods := x.1.toArray }))
    rw [hmethods]
    cases Method.allWithFreshLocal options d.name c.pool c.methods.toList c.pool with
    | error obstacle => rfl
    | ok x =>
      show Except.ok _ = Except.ok _
      simp only [opened]
      rw [hdeclaration]
      simp [ClassBuilder.ofDeclaration]

end Stages

/-- **The work on the events is the work method by method.** -/
theorem withFreshLocals_eq (options : Options) (bytes : Bytes) :
    withFreshLocals options bytes = (do
      let file ← ClassFile.read bytes
      ((file.withFreshLocals options).mapError Obstacle.shown).map ClassFile.write) := by
  unfold withFreshLocals
  cases ClassFile.read bytes with
  | error fault => rfl
  | ok file =>
    have hsettled : ∀ x : Stages × Option Fault,
        (match x with
        | (_, some fault) => throw fault
        | ((_, builder), none) => builder.finish) = settled x >>= fun y => y.2.finish := by
      rintro ⟨⟨i, b⟩, _ | fault⟩ <;> rfl
    exact (hsettled (file.script.deliver Stages.sink (.ofOptions options, .empty))).trans
      (Stages.send_class options file)

end FreshLocal
