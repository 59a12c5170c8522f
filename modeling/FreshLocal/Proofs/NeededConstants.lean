import FreshLocal.Proofs.DeclaredSlots
import FreshLocal.Proofs.OutsideBodies
import FreshLocal.Proofs.ProperBody
import FreshLocal.Proofs.WorkInvariants

/-!
# Constants that are needed

A body comes with the pool of its class: its attributes and the classes of its
frames were found by their indices. When it is stored, the names of its tables
and of these classes are looked for again, by what they stand for. Only where
frames are spelled out do classes come up that the body did not name: those of
the receiver and of the arguments.

**Argument.** If no text is there twice, then what was found by its index is
found again, and this stays so when the pool has grown
(`PoolRequest.KnownTo`). So an invariant is kept by the storing of each body: the
pool is that of the class with some names, and classes of these names, behind it
(`ConstantPool.AddsNames`). A new variable behind all others brings in no name at
all, and then nothing is put behind the pool, and there is room for nothing.

* `PoolRequest.KnownTo`: a pool has all that is asked for.
* `ConstantPool.AddsNames`: a pool with some names behind it, and the classes of these.
* `Body.requests_of_draft`: what the storing of a body asks for.
* `ClassFile.Needs`: the names that may come in.
* `withFreshLocals_neededConstants`: **the pool of the class that comes out**.
-/

namespace FreshLocal

open PoolM

/-- Does the fault say that the pool is full, perhaps in the name of a method? -/
def Fault.IsPoolFull : Fault → Prop
  | constantPoolFull _ => True
  | inMethod _ inner => inner.IsPoolFull
  | _ => False

theorem Fault.IsPlain.not_isPoolFull {fault : Fault} (h : fault.IsPlain) : ¬ fault.IsPoolFull := by
  cases fault with
  | constantPoolFull _ | inMethod _ _ => exact h.elim
  | _ => exact id

/-! ## What a pool has -/

section Pool

variable {base p q : ConstantPool} {c : Constant} {i : PoolIndex} {name t : String}
  {Names : String → Prop} {P : Fault → Prop}

/-- No two texts of the pool are equal. -/
def ConstantPool.TextsOnce (p : ConstantPool) : Prop :=
  ∀ i j text, p.utf8 i = .ok text → p.utf8 j = .ok text → i = j

/-- **Does the pool have all that is asked for?** Then it stays as it is. -/
def PoolRequest.KnownTo (p : ConstantPool) (r : PoolRequest) : Prop := ∃ i, r.index.run p = .ok i p

namespace PoolRequest

/-- A constant of the pool is found. -/
theorem exists_intern (h : p.lookup i = .ok c) : ∃ j, (ConstantPool.intern c).run p = .ok j p := by
  have hmem : c ∈ p.inOrder :=
    List.mem_filterMap.2 ⟨some c, List.mem_of_getElem? (ConstantPool.lookup_eq_ok.1 h), rfl⟩
  cases hfound : p.findIndex? (· == c) with
  | some j => exact ⟨j, ConstantPool.intern_of_found hfound⟩
  | none => exact absurd hmem (ConstantPool.notMem_of_findIndex? hfound)

theorem knownTo_text (h : p.utf8 i = .ok t) : (text t).KnownTo p :=
  exists_intern (ConstantPool.utf8_eq_ok.1 h)

/-- **A class is found again**, since its name is found where the class has it. -/
theorem knownTo_className (hp : p.Stored) (honce : p.TextsOnce) (h : p.className i = .ok name) :
    (className name).KnownTo p := by
  obtain ⟨n, hclass, hname⟩ := ConstantPool.className_eq_ok.1 h
  obtain ⟨j, hj⟩ := exists_intern hname
  have hsame : n = j := honce n j name (ConstantPool.utf8_eq_ok.2 hname)
    (ConstantPool.utf8_eq_ok.2 (ConstantPool.lookup_intern hp.packed.2 hj))
  rw [hsame] at hclass
  obtain ⟨k, hk⟩ := exists_intern hclass
  exact ⟨k, bind_eq_ok.2 ⟨j, p, hj, hk⟩⟩

end PoolRequest

/-- Is the constant one of the names, or a class with such a name? -/
def Constant.IsNamed (p : ConstantPool) (Names : String → Prop) : Constant → Prop
  | utf8 text => Names text
  | classRef name => ∃ text, p.utf8 name = .ok text ∧ Names text
  | _ => False

theorem Constant.IsNamed.grows (hgrows : p.Grows q) (h : c.IsNamed p Names) :
    c.IsNamed q Names := by
  cases c with
  | classRef name =>
    obtain ⟨text, htext, hname⟩ := h
    exact ⟨text, hgrows.utf8 htext, hname⟩
  | _ => exact h

/-- **A pool with some names behind it**, and with classes of these names. -/
structure ConstantPool.AddsNames (base : ConstantPool) (Names : String → Prop)
    (p : ConstantPool) : Prop where
  stored : p.Stored
  added : ∃ more : List Constant, p.entries.toList = base.entries.toList ++ more.map some ∧
    ∀ c ∈ more, c.IsNamed p Names

namespace ConstantPool

theorem AddsNames.refl (hp : p.Stored) : p.AddsNames Names p :=
  ⟨hp, [], by simp, fun c hc => (List.not_mem_nil hc).elim⟩

theorem AddsNames.grows (hp : base.AddsNames Names p) : base.Grows p := by
  obtain ⟨more, hmore, -⟩ := hp.added
  exact ⟨more.map some, hmore⟩

theorem AddsNames.mono {Names' : String → Prop} (hp : base.AddsNames Names p)
    (h : ∀ name, Names name → Names' name) : base.AddsNames Names' p := by
  obtain ⟨more, hmore, hnamed⟩ := hp.added
  refine ⟨hp.stored, more, hmore, fun c hc => ?_⟩
  have hc := hnamed c hc
  cases c with
  | utf8 text => exact h text hc
  | classRef name =>
    obtain ⟨text, htext, hname⟩ := hc
    exact ⟨text, htext, h text hname⟩
  | _ => exact hc

/-- If there are no names, nothing is added. -/
theorem AddsNames.eq (hp : base.AddsNames Names p) (h : ∀ name, ¬ Names name) : p = base := by
  obtain ⟨more, hmore, hnamed⟩ := hp.added
  have hnone : more = [] := by
    refine List.eq_nil_iff_forall_not_mem.2 fun c hc => ?_
    have hc := hnamed c hc
    cases c with
    | utf8 text => exact h text hc
    | classRef name =>
      obtain ⟨text, -, hname⟩ := hc
      exact h text hname
    | _ => exact hc
  rw [hnone, List.map_nil, List.append_nil, Array.toList_inj] at hmore
  cases p
  cases base
  cases hmore
  rfl

/-- **One more name**, or one more class with such a name. -/
theorem AddsNames.intern (hp : base.AddsNames Names p)
    (hshort : ∀ name, Names name → ShortText name) (hc : c.IsNamed p Names)
    (h : (intern c).run p = .ok i q) :
    base.AddsNames Names q ∧ q.lookup i = .ok c := by
  have hone : slots c = [some c] ∧ c.Fits := by
    cases c with
    | utf8 text => exact ⟨rfl, hshort text hc⟩
    | classRef name => exact ⟨rfl, trivial⟩
    | _ => exact hc.elim
  obtain ⟨hgrows, hq, hlookup⟩ := intern_eq_ok hp.stored hone.2 h
  refine ⟨?_, hlookup⟩
  obtain ⟨-, rfl⟩ | ⟨-, hadd⟩ := intern_cases h
  · exact hp
  · obtain ⟨more, hmore, hnamed⟩ := hp.added
    refine ⟨hq, more ++ [c], ?_, fun c' hc' => ?_⟩
    · rw [(add_eq_ok hadd).2.2, hmore, hone.1, List.map_append, List.append_assoc]
      rfl
    · obtain hc' | hc' := List.mem_append.1 hc'
      · exact (hnamed c' hc').grows hgrows
      · rw [List.mem_singleton.1 hc']
        exact hc.grows hgrows

/-- **What the first pool has** is not added again. -/
theorem safe_knownTo {r : PoolRequest} (h : r.KnownTo base) :
    Safe (base.AddsNames Names) P r.index := by
  obtain ⟨i, hi⟩ := h
  obtain ⟨-, hagain⟩ := r.settles_index hi
  refine ⟨fun p a q hp hrun => ?_, fun p fault q hp hrun => ?_⟩
  · rw [hagain p hp.grows] at hrun
    cases hrun
    exact hp
  · rw [hagain p hp.grows] at hrun
    cases hrun

/-- **A class with one of the names** is added, or there is no room for it. -/
theorem safe_named (hfull : ∀ index, P (.constantPoolFull index))
    (hshort : ∀ name, Names name → ShortText name) (hname : Names name) :
    Safe (base.AddsNames Names) P (classIndex name) := by
  refine ⟨fun p i q hp h => ?_, fun p fault q hp h => ?_⟩
  · obtain ⟨n, r, htext, hclass⟩ := bind_eq_ok.1 h
    obtain ⟨hr, hn⟩ := hp.intern hshort (c := .utf8 name) hname htext
    have hnamed : (Constant.classRef n).IsNamed r Names := ⟨name, utf8_eq_ok.2 hn, hname⟩
    exact (hr.intern hshort hnamed hclass).1
  · obtain htext | ⟨n, r, htext, hclass⟩ := bind_eq_error.1 h
    · obtain ⟨⟨index, rfl⟩, rfl⟩ := intern_eq_error htext
      exact ⟨hp, hfull index⟩
    · obtain ⟨hr, -⟩ := hp.intern hshort (c := .utf8 name) hname htext
      obtain ⟨⟨index, rfl⟩, rfl⟩ := intern_eq_error hclass
      exact ⟨hr, hfull index⟩

end ConstantPool

end Pool

/-! ## What the storing of a body asks for -/

open BodyEvent

variable {options : Options} {name : BinaryName} {pool : ConstantPool}

/-- **The types of the frames that are sent on**: they are those of the frames of the body, unless
the new variable stands behind the arguments, and then also those of the receiver and the
arguments. -/
theorem MethodInjection.frames_run {m : DeclaredMethod} {j : MethodInjection}
    {maxStack maxLocals : UInt16} {events sent : List BodyEvent}
    (hevents : ∀ e ∈ events, ¬ e.IsStart)
    (h : Stage.run step (.ofAllocator (options.allocator m)) (.start maxStack maxLocals :: events) =
      (j, sent, none)) :
    sent.filterMap table? = events.filterMap table? ∧
      ∀ f', .frame f' ∈ sent → (∃ f, .frame f ∈ events) ∧ ∀ n, .object n ∈ f'.types →
        (∃ f, .frame f ∈ events ∧ .object n ∈ f.types) ∨
          (options.placement = .behindArguments ∧ .object n ∈ m.implicit) := by
  obtain ⟨fresh, a, behind, ha, hrun, rfl⟩ := run_start h
  let Known : CodeType → Prop := fun t => ∀ n, t = .object n →
    (∃ f, .frame f ∈ events ∧ t ∈ f.types) ∨ (options.placement = .behindArguments ∧ t ∈ m.implicit)
  have hframes : ∀ f, .frame f ∈ events → ∀ t ∈ f.types, Known t :=
    fun f hf t ht n _ => .inl ⟨f, hf, ht⟩
  have htop : Known .top := fun n hn => by cases hn
  have htypes : a.AllTypes Known :=
    options.allocate_types (fun hp t ht n _ => .inr ⟨hp, ht⟩) (fun n hn => by cases hn) ha
  obtain ⟨-, -, hcarried⟩ := run_carried (P := fun a => a.AllTypes Known) hevents
    (fun a f hf ha => (Allocator.takeFrame_types htop ha (hframes f hf)).1) htypes hrun
  obtain ⟨-, -, htables, -⟩ := carried_same (d := 0) (fun _ _ ⟨_, _, h⟩ => h.same) hcarried
  refine ⟨htables, fun f' hf' => ?_⟩
  simp only [List.mem_cons, reduceCtorEq, false_or] at hf'
  obtain ⟨e, he, a', ha', hee'⟩ := exists_of_mem_right hcarried hf'
  -- what was sent is a frame, so what it was made of is one
  obtain ⟨f, rfl, htaken⟩ : ∃ f, e = .frame f ∧ (a'.takeFrame f).2 = .ok f' := by
    have hrel := hee'.codeFrame?
    cases e with
    | frame f =>
      cases hrel with
      | some htaken => exact ⟨f, rfl, htaken⟩
    | _ => cases hrel
  refine ⟨⟨f, he⟩, fun n hn => ?_⟩
  exact (Allocator.takeFrame_types htop ha' (hframes f he)).2 f' htaken _ hn n rfl

/-- **What the storing of a body asks for**: the names of the tables that it has entries of, and the
classes that its frames name. If it has a frame and the new variable stands behind the arguments,
these may be asked for too. -/
theorem Body.requests_of_draft {b : Body} {d : MethodDeclaration} {draft : Draft} {r : PoolRequest}
    (h : b.draft options name d = .ok draft) (hr : draft.Asks r) :
    (∃ table ∈ b.tables, r = .text table) ∨ ∃ n, r = .className n ∧
      ((∃ x ∈ b.frames, .object n ∈ x.2.types) ∨
        (options.placement = .behindArguments ∧ b.frames ≠ [] ∧
          .object n ∈ (DeclaredMethod.ofDeclaration d name).implicit)) := by
  obtain ⟨hread, i, sent, hrun, rfl⟩ := Body.draft_eq_ok h
  obtain ⟨attached, -, hframes, hevents⟩ := events_eq_of_none hread
  obtain ⟨rest, hstart, hrest⟩ := b.events_eq
  have hmem : ∀ f, .frame f ∈ rest → ∃ x ∈ b.frames, f = x.2.map id fun o => b.label o.toNat := by
    intro f hf
    refine b.mem_frames_of_events ?_
    rw [hstart]
    exact List.mem_cons_of_mem _ hf
  rw [hstart] at hrun
  obtain ⟨htables, hsent⟩ := MethodInjection.frames_run hrest hrun
  have hholds : (Draft.ofEvents b.maxStack b.maxLocals sent).Holds
      (.start b.maxStack b.maxLocals :: sent) :=
    (Draft.holds_empty b.maxStack b.maxLocals).foldl sent
  obtain ⟨table, htable, rfl⟩ | ⟨f', n, hf', hn, rfl⟩ := hr.of_holds hholds
  · refine .inl ⟨table, tables_events hframes ?_, rfl⟩
    rw [← hevents, hstart]
    rw [List.filterMap_cons_none rfl, htables] at htable
    rwa [List.filterMap_cons_none rfl]
  · have hf' : .frame f' ∈ sent := by simpa using hf'
    obtain ⟨⟨g, hg⟩, htypes⟩ := hsent f' hf'
    refine .inr ⟨n, rfl, ?_⟩
    obtain ⟨f, hf, hnf⟩ | ⟨hp, himplicit⟩ := htypes n hn
    · obtain ⟨x, hx, rfl⟩ := hmem f hf
      rw [Frame.types_map] at hnf
      obtain ⟨t, ht, hobject⟩ := List.mem_map.1 hnf
      cases t <;> cases hobject
      exact .inl ⟨x, hx, ht⟩
    · obtain ⟨x, hx, -⟩ := hmem g hg
      exact .inr ⟨hp, List.ne_nil_of_mem hx, himplicit⟩

/-! ## The constants that are added -/

/-- The types of the receiver and the arguments name the class itself and types of parameters. -/
theorem DeclaredMethod.object_of_implicit {m : DeclaredMethod} {n : String}
    (h : .object n ∈ m.implicit) :
    m.owner.text = n ∨ ∃ t ∈ m.descriptor.parameters, (t.localType : CodeType) = .object n := by
  obtain h | h := List.mem_append.1 h
  · split at h
    · obtain hn := List.mem_singleton.1 h
      unfold receiver at hn
      split at hn
      · cases hn
      · cases hn
        exact .inl rfl
    · cases h
  · obtain ⟨t, ht, hn⟩ := List.mem_map.1 h
    exact .inr ⟨t, ht, hn⟩

namespace ClassFile

variable {c : ClassFile}

/-- **A name that frames may need**: that of the class, or of the type of a parameter, of a method
that has frames. -/
def Needs (c : ClassFile) (n : String) : Prop :=
  ∃ m ∈ c.methods, ∃ d code b, m.split c.pool = .ok (d, some code) ∧
    Body.read c.pool code.body = .ok b ∧ b.frames ≠ [] ∧
    (c.className = .ok n ∨
      ∃ t ∈ d.descriptor.parameters, (t.localType : CodeType) = .object n)

/-- Names come in only if the new variables stand behind the arguments. -/
def MayAdd (options : Options) (c : ClassFile) (n : String) : Prop :=
  options.placement = .behindArguments ∧ c.Needs n

theorem Needs.shortText {n : String} (hc : c.pool.Stored) (h : c.Needs n) : ShortText n := by
  obtain ⟨m, -, d, code, b, hsplit, -, -, hname | ⟨t, ht, hn⟩⟩ := h
  · exact hc.shortClassName hname
  · obtain ⟨-, -, -, -, hdescriptor⟩ := Method.split_eq_ok hsplit
    have hrender : ShortText d.descriptor.render := hc.shortText hdescriptor
    have hshort := FieldType.shortName_localType (π := Label) (t := t)
      (hrender.of_infix (MethodDescriptor.infix_render ht))
    rw [hn] at hshort
    exact hshort

/-- The pool in some bytes, whatever stands behind it. -/
def readPool (bytes : Bytes) : Except Fault ConstantPool := do
  let (_, cursor) ← (readVersion (.start bytes)).mapError .decode
  let (pool, _) ← ConstantPool.read cursor
  pure pool

/-- **Of a class file** it is the pool of the class. -/
theorem readPool_of_read {bytes : Bytes} (h : read bytes = .ok c) :
    readPool bytes = .ok c.pool := by
  have hbehind : ∀ v (pool : ConstantPool), (readBehind v pool).Ensures fun c => c.pool = pool := by
    intro v pool
    refine .bind fun flags => .bind fun this => .bind fun super => .bind fun interfaces => ?_
    exact .bind fun fields => .bind fun methods => .bind fun attributes => Reader.ensures_pure rfl
  obtain ⟨⟨v, cursor⟩, hversion, h⟩ := Except.bind_eq_ok.1 h
  obtain ⟨⟨pool, cursor'⟩, hpool, h⟩ := Except.bind_eq_ok.1 h
  obtain ⟨⟨file, cursor''⟩, hfile, h⟩ := Except.bind_eq_ok.1 h
  have hsame := hbehind v pool _ _ _ (Except.mapError_eq_ok.1 hfile)
  dsimp only at h
  split at h
  · cases h
    refine Except.bind_eq_ok.2 ⟨_, hversion, Except.bind_eq_ok.2 ⟨_, hpool, ?_⟩⟩
    rw [hsame]
    rfl
  · cases h

/-- **Of a class that is written** it is the pool of the class, whatever the rest is. -/
theorem readPool_write (hc : c.pool.Stored) : readPool c.write = .ok c.pool := by
  have hversion := finds_version (o := 0) c.version (c.pool.write ++ c.writeBehind)
  have hpool := ConstantPool.read_write hc (0 + (Bytes.u32 magic ++ c.version.write).length)
    c.writeBehind
  rw [write_eq, readPool, Cursor.start, hversion]
  simp only [Except.mapError, bind, Except.bind, hpool]
  rfl

end ClassFile

/-- **The storing of a method** adds no other names, and a pool that is full comes up only where
there is one to add. -/
theorem Method.storedSafely_named {c : ClassFile} {decl : ClassDeclaration} {m : Method}
    (hc : c.Stored) (honce : c.pool.TextsOnce) (hd : c.declaration = .ok decl)
    (hm : m ∈ c.methods.toList) :
    m.StoredSafely options decl.name c.pool (c.pool.AddsNames (c.MayAdd options))
      fun fault => fault.IsPoolFull → ∃ n, c.MayAdd options n := by
  intro d code body hsplit hdraft
  obtain ⟨b, draft, hb, hnew, heq⟩ := MethodDeclaration.draft_eq_ok hdraft
  obtain rfl := Option.some.inj heq
  obtain ⟨stored, hstored, hof⟩ := Body.ofAttribute_of_read hb
  have hfits := CodeAttribute.fits_of_read hstored
  obtain ⟨-, -, -, hcode, -⟩ := Method.split_eq_ok hsplit
  obtain ⟨-, -, -, -, -, hbody⟩ := Method.splitCodeOnto_some hcode
  refine ClassBuilder.safe_complete (fun fault h hfull => absurd hfull h.not_isPoolFull) ?_
  rintro draft' ⟨rfl⟩
  refine ⟨ConstantPool.safe_knownTo (PoolRequest.knownTo_text hbody), fun r hr => ?_⟩
  -- what the body had was found in the pool, so it is found again
  obtain ⟨table, htable, rfl⟩ | ⟨n, rfl, ⟨x, hx, hn⟩ | ⟨hp, hframes, himplicit⟩⟩ :=
    Body.requests_of_draft hnew hr
  · obtain ⟨a, -, hname⟩ := Body.attribute_of_table hc.pool hfits.attributes.2 hof table htable
    exact ConstantPool.safe_knownTo (PoolRequest.knownTo_text hname)
  · obtain ⟨i, hi⟩ := Body.className_of_frames hof x hx n hn
    exact ConstantPool.safe_knownTo (PoolRequest.knownTo_className hc.pool honce hi)
  · obtain ⟨hclass, -⟩ := ClassFile.declaration_eq_ok hd
    have hadds : c.MayAdd options n := by
      refine ⟨hp, m, Array.mem_toList_iff.1 hm, d, code, b, hsplit, hb, hframes, ?_⟩
      obtain rfl | hparameter := DeclaredMethod.object_of_implicit himplicit
      · exact .inl hclass
      · exact .inr hparameter
    exact ConstantPool.safe_named (fun _ _ => ⟨n, hadds⟩)
      (fun n hn => hn.2.shortText hc.pool) hadds

/-- **The pool of the class that comes out.** Let no text of a class be there twice. If the new
variables stand behind all others, then the pool stays as it is, and the work does not stop for a
pool that is full. In any case only names of the class and of parameter types, of methods that have
frames, are put behind the pool, and classes of these names. -/
theorem withFreshLocals_neededConstants {bytes : Bytes} {file : ClassFile}
    (hread : ClassFile.read bytes = .ok file) (honce : file.pool.TextsOnce) :
    (options.placement = .behindAll →
      (∀ fault, withFreshLocals options bytes = .error fault → ¬ fault.IsPoolFull) ∧
      ∀ bytes', withFreshLocals options bytes = .ok bytes' →
        ClassFile.readPool bytes' = .ok file.pool) ∧
    ∀ bytes', withFreshLocals options bytes = .ok bytes' → ∃ pool,
      ClassFile.readPool bytes' = .ok pool ∧ file.pool.AddsNames file.Needs pool := by
  have hfile := ClassFile.stored_of_read hread
  have hms : ∀ d, file.declaration = .ok d → ∀ m ∈ file.methods.toList,
      m.StoredSafely options d.name file.pool (file.pool.AddsNames (file.MayAdd options))
        fun fault => fault.IsPoolFull → ∃ n, file.MayAdd options n :=
    fun d hd m hm => Method.storedSafely_named hfile honce hd hm
  have hstart : file.pool.AddsNames (file.MayAdd options) file.pool := .refl hfile.pool
  have hok : ∀ bytes', withFreshLocals options bytes = .ok bytes' → ∃ pool,
      ClassFile.readPool bytes' = .ok pool ∧ file.pool.AddsNames (file.MayAdd options) pool := by
    intro bytes' h
    rw [withFreshLocals_eq, hread] at h
    obtain ⟨built, hbuilt, rfl⟩ := Except.map_eq_ok.1 h
    have hpool := ClassFile.withFreshLocals_ok hms hstart (Except.mapError_eq_ok.1 hbuilt)
    exact ⟨built.pool, ClassFile.readPool_write hpool.stored, hpool⟩
  refine ⟨fun hp => ?_, fun bytes' h => ?_⟩
  · have hnone : ∀ n, ¬ file.MayAdd options n := by
      rintro n ⟨hbehind, -⟩
      rw [hp] at hbehind
      cases hbehind
    refine ⟨fun fault h hfull => ?_, fun bytes' h => ?_⟩
    · rw [withFreshLocals_eq, hread] at h
      change ((file.withFreshLocals options).mapError Obstacle.shown).map ClassFile.write = _ at h
      cases hwork : file.withFreshLocals options with
      | ok built =>
        rw [hwork] at h
        cases h
      | error obstacle =>
        rw [hwork] at h
        obtain rfl : obstacle.shown = fault := Except.error.inj h
        have hmeets := ClassFile.withFreshLocals_error
          (fun fault h hfull => absurd hfull h.not_isPoolFull) hms hstart obstacle hwork
        have hadds : ∃ n, file.MayAdd options n := by
          cases obstacle with
          | outside cause => exact hmeets hfull
          | body d work inner =>
            cases work with
            | reading | injecting | storing => exact hmeets.1 hfull
        obtain ⟨n, hn⟩ := hadds
        exact hnone n hn
    · obtain ⟨pool, hpool, hadds⟩ := hok bytes' h
      rw [hpool, hadds.eq hnone]
  · obtain ⟨pool, hpool, hadds⟩ := hok bytes' h
    exact ⟨pool, hpool, hadds.mono fun n hn => hn.2⟩

/-! ## A class with a frame -/

/-- A method that does nothing, with a frame in front of its last instruction. -/
def framedCode : CodeAttribute := ⟨0, 1, [0x00, 0xb1], [], [⟨6, [0, 1, 1]⟩]⟩

/-- Its class. The pool has the type of the parameter as a part of a text only. -/
def framedClass : ClassFile :=
  { sampleClass with
    pool := ⟨#[none, some (.utf8 "me/Main"), some (.classRef 1), some (.utf8 "visit"),
      some (.utf8 "(LA;)V"), some (.utf8 "Code"), some (.utf8 "StackMapTable")]⟩
    methods := #[⟨.ofBits 8, 3, 4, [⟨5, framedCode.write⟩]⟩] }

/-- The body of the method. -/
def framedBody : Body :=
  { sampleBody with
    maxStack := 0
    length := 2
    operations := [(0, .plain (.nullary ⟨0x00, by decide⟩)), (1, .branch (.exit .returnVoid))]
    frames := [(1, .same)] }

def framedMethod : MethodDeclaration :=
  ⟨.ofBits 8, ⟨"visit", by decide⟩, 3, ⟨[⟨0, .object ⟨"A", by decide⟩⟩], none⟩, 4, []⟩

/-- The pool with the class of the parameter. -/
def framedPool : ConstantPool :=
  ⟨framedClass.pool.entries ++ #[some (.utf8 "A"), some (.classRef 7)]⟩

/-- What is put into the code, if the label is that of the frame. -/
def framedItems (l : Label) : List PlacedItem :=
  [⟨0, .operation (.plain (.nullary .iconstM1)), false⟩,
    ⟨1, .operation (.plain (.store .int 1)), false⟩,
    ⟨2, .operation (.plain (.nullary ⟨0x00, by decide⟩)), false⟩, ⟨3, .label l, false⟩,
    ⟨3, .frame (.full [.object "A", .integer] []), false⟩,
    ⟨3, .operation (.branch (.exit .returnVoid)), false⟩]

/-- The body with the new variable. -/
def framedDraft (l : Label) : Draft :=
  { Draft.empty 1 2 with items := ((framedItems l).map (·.item)).toArray }

theorem stored_framedClass : framedClass.Stored := by
  refine ⟨⟨[.utf8 "me/Main", .classRef 1, .utf8 "visit", .utf8 "(LA;)V", .utf8 "Code",
    .utf8 "StackMapTable"], rfl, by decide, fun c hc => ?_⟩, stored_sampleClass.interfaces,
    stored_sampleClass.fields, ⟨by decide, fun m hm => ?_⟩, stored_sampleClass.attributes⟩
  · simp only [List.mem_cons, List.not_mem_nil, or_false] at hc
    rcases hc with rfl | rfl | rfl | rfl | rfl | rfl
    all_goals first | trivial | exact ShortText.of_length (by decide)
  · obtain rfl := List.mem_singleton.1 hm
    refine ⟨by decide, fun a ha => ?_⟩
    obtain rfl := List.mem_singleton.1 ha
    unfold Attribute.Fits
    decide

theorem textsOnce_framedClass : framedClass.pool.TextsOnce := by
  have hnodup : framedClass.pool.entries.toList.Nodup := by decide +kernel
  intro i j text hi hj
  have hi := ConstantPool.lookup_eq_ok.1 (ConstantPool.utf8_eq_ok.1 hi)
  have hj := ConstantPool.lookup_eq_ok.1 (ConstantPool.utf8_eq_ok.1 hj)
  obtain ⟨hlt, -⟩ := List.getElem?_eq_some_iff.1 hi
  exact UInt16.toNat_inj.1 ((List.getElem?_inj hlt hnodup).1 (hi.trans hj.symm))

theorem split_framed : Method.split framedClass.pool ⟨.ofBits 8, 3, 4, [⟨5, framedCode.write⟩]⟩ =
    .ok (framedMethod, some ⟨5, framedCode.write⟩) := rfl

theorem read_framed : Body.read framedClass.pool framedCode.write = .ok framedBody := by
  refine Body.read_eq_ok (c := framedCode) (CodeAttribute.read_write ?_) rfl ?_
  · exact ⟨by decide, ⟨by decide, by simp [framedCode]⟩, by decide,
      by simp [framedCode, Attribute.Fits]⟩
  · refine ⟨by decide, by decide, fun o ho => .inl ?_⟩
    have hone : framedBody.references = [1] := rfl
    rw [hone, List.mem_singleton] at ho
    rw [ho]
    decide

theorem framedBody_events : framedBody.events =
    ([.start 0 1, .operation (.plain (.nullary ⟨0x00, by decide⟩)), .label (framedBody.label 1),
      .frame .same, .operation (.branch (.exit .returnVoid)), .limits 0 1], none) := by
  rw [Body.events_eq_of_attached [(0, .plain (.nullary ⟨0x00, by decide⟩), []),
    (1, .branch (.exit .returnVoid), [.same])] rfl, Body.eventsWith]
  simp only [List.flatMap_cons, Body.eventsAt_eq, Body.lastEvents_eq]
  rfl

theorem draft_framed : framedMethod.draft .standard ⟨"me/Main", by decide⟩ framedClass.pool
    (some ⟨5, framedCode.write⟩) = .ok (some (framedDraft (framedBody.label 1))) := by
  refine Except.bind_eq_ok.2 ⟨framedBody, Except.mapError_eq_ok.2 read_framed, ?_⟩
  refine Except.map_eq_ok.2 ⟨framedDraft (framedBody.label 1), ?_, rfl⟩
  unfold Body.draft
  rw [framedBody_events]
  rfl

theorem ofItems_framed (l : Label) : Layout.ofItems ((framedItems l).map (·.item)) =
    .ok ⟨framedItems l, (∅ : Std.HashMap Label Nat).insert l 3, 4⟩ := by
  have hnew : (∅ : Std.HashMap Label Nat).contains l = false := by simp
  exact Except.bind_eq_ok.2 ⟨_, (Layout.placeOnto_label hnew).trans rfl, rfl⟩

theorem classIndex_framed :
    (ConstantPool.classIndex "A").run framedClass.pool = .ok 8 framedPool :=
  ConstantPool.classIndex_run (by decide) (by decide) (by decide)

theorem complete_framed (l : Label) (m : Method) : ∃ m',
    (ClassBuilder.complete m (some (framedDraft l))).run framedClass.pool = .ok m' framedPool := by
  let stored : StackMapFrame := ⟨3, .full [.object 8, .integer] []⟩
  have hframe : ∀ (layout : Layout) (code : List Bytes), (layout.assembleItem ⟨code, [], none⟩
      ⟨3, .frame (.full [.object "A", .integer] []), false⟩).run framedClass.pool =
        .ok ⟨code, [stored], some 3⟩ framedPool := by
    intro layout code
    refine bind_eq_ok.2 ⟨stored, framedPool, map_eq_ok.2 ⟨stored.frame, ?_, rfl⟩, rfl⟩
    refine seq_eq_ok.2 ⟨_, framedPool, [], map_eq_ok.2 ⟨[.object 8, .integer], ?_, rfl⟩, rfl, rfl⟩
    rw [List.mapM_cons]
    exact bind_eq_ok.2 ⟨_, _, map_eq_ok.2 ⟨8, classIndex_framed, rfl⟩, rfl⟩
  have hitems : ∀ labels, ((framedItems l).foldlM (Layout.assembleItem ⟨framedItems l, labels, 4⟩)
      ⟨[], [], none⟩).run framedClass.pool =
        .ok ⟨[[0xb1], [0x00], [0x3c], [0x02]], [stored], some 3⟩ framedPool := by
    intro labels
    refine bind_eq_ok.2 ⟨_, framedClass.pool, rfl, bind_eq_ok.2 ⟨_, framedClass.pool, rfl, ?_⟩⟩
    refine bind_eq_ok.2 ⟨_, framedClass.pool, rfl, bind_eq_ok.2 ⟨_, framedClass.pool, rfl, ?_⟩⟩
    exact bind_eq_ok.2 ⟨_, framedPool, hframe _ _, rfl⟩
  have htable : (ConstantPool.textIndex StackMapFrame.tableName).run framedPool =
      .ok 6 framedPool :=
    ConstantPool.intern_of_found (by rw [ConstantPool.findIndex?_toList]; decide)
  have hname : (ConstantPool.textIndex CodeAttribute.name).run framedPool = .ok 5 framedPool :=
    ConstantPool.intern_of_found (by rw [ConstantPool.findIndex?_toList]; decide)
  let c : CodeAttribute :=
    ⟨1, 2, [0x02, 0x3c, 0x00, 0xb1], [], [⟨6, StackMapFrame.writeTable [stored]⟩]⟩
  have hframes : (tableAttribute StackMapFrame.tableName StackMapFrame.writeTable [stored]).run
      framedPool = .ok c.attributes framedPool :=
    bind_eq_ok.2 ⟨_, framedPool, bind_eq_ok.2 ⟨6, _, htable, rfl⟩, rfl⟩
  have hc : (framedDraft l).assemble.run framedClass.pool = .ok c framedPool :=
    Draft.assemble_iff.2 ⟨_, _, [], _, [], [], [], [], [], _, _, _, _, _, _, ofItems_framed l,
      hitems _, rfl, hframes, rfl, rfl, rfl, rfl, rfl, rfl⟩
  exact ⟨_, bind_eq_ok.2 ⟨c, _, hc, bind_eq_ok.2 ⟨_, _, bind_eq_ok.2 ⟨5, _, hname, rfl⟩, rfl⟩⟩⟩

/-- Behind the arguments the frame is spelled out, and the class of the parameter comes in. -/
theorem withFreshLocals_neededConstants_framed : ∃ file bytes' pool,
    ClassFile.read framedClass.write = .ok file ∧ file.pool.TextsOnce ∧
      withFreshLocals .standard framedClass.write = .ok bytes' ∧
      ClassFile.readPool bytes' = .ok pool ∧ file.pool.AddsNames file.Needs pool ∧
      pool.entries = file.pool.entries ++ #[some (.utf8 "A"), some (.classRef 7)] ∧
      file.Needs "A" ∧
      ∀ fault, withFreshLocals ⟨.behindAll, .spellOut⟩ framedClass.write = .error fault →
        ¬ fault.IsPoolFull := by
  have hread := ClassFile.read_write stored_framedClass
  obtain ⟨m, hcomplete⟩ :=
    complete_framed (framedBody.label 1) (ClassBuilder.ofMethodDeclaration framedMethod)
  have hstore : framedMethod.store (some (framedDraft (framedBody.label 1))) framedClass.pool =
      .ok (m, framedPool) := by
    unfold MethodDeclaration.store
    rw [hcomplete]
  have hmethod : Method.withFreshLocal .standard ⟨"me/Main", by decide⟩ framedClass.pool
      ⟨.ofBits 8, 3, 4, [⟨5, framedCode.write⟩]⟩ framedClass.pool = .ok (m, framedPool) :=
    Except.bind_eq_ok.2 ⟨_, Except.mapError_eq_ok.2 split_framed,
      Except.bind_eq_ok.2 ⟨_, draft_framed, hstore⟩⟩
  let built : ClassFile := { framedClass with pool := framedPool, methods := #[m] }
  have hbuilt : framedClass.withFreshLocals .standard = .ok built :=
    Except.bind_eq_ok.2 ⟨_, rfl, Except.bind_eq_ok.2 ⟨([m], framedPool),
      Except.bind_eq_ok.2 ⟨_, hmethod, rfl⟩, rfl⟩⟩
  have hwork : withFreshLocals .standard framedClass.write = .ok built.write := by
    rw [withFreshLocals_eq, hread]
    show Except.map _ (Except.mapError _ (framedClass.withFreshLocals .standard)) = _
    rw [hbuilt]
    rfl
  have hshort : ShortText "A" := .of_length (by decide)
  obtain ⟨-, hstored, -⟩ :=
    ConstantPool.classIndex_eq_ok stored_framedClass.pool hshort classIndex_framed
  obtain ⟨-, hnames⟩ := withFreshLocals_neededConstants hread textsOnce_framedClass
  obtain ⟨pool, hpool, hadds⟩ := hnames _ hwork
  obtain rfl : framedPool = pool :=
    Except.ok.inj ((ClassFile.readPool_write (c := built) hstored).symm.trans hpool)
  have hneeds : framedClass.Needs "A" :=
    ⟨_, Array.mem_singleton.2 rfl, framedMethod, _, framedBody, split_framed, read_framed,
      List.cons_ne_nil _ _, .inr ⟨_, List.mem_singleton_self _, rfl⟩⟩
  refine ⟨framedClass, _, framedPool, hread, textsOnce_framedClass, hwork, hpool, hadds, rfl,
    hneeds, ?_⟩
  exact ((withFreshLocals_neededConstants hread textsOnce_framedClass).1 rfl).1

end FreshLocal
