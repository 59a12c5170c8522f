import FreshLocal.ClassBuilder
import FreshLocal.Proofs.BodyAssembly
import FreshLocal.Proofs.PoolInvariants
import FreshLocal.Proofs.PoolRequests

/-!
# What the storing of a method asks of the pool

A method is stored by many small steps. Those that touch the pool ask it for the
index of a text or of a class; all others look at the draft only. So whatever
these requests keep of a pool, the storing of a method keeps, also when it fails
on the way, and its faults are those of the requests and the plain ones of the
other steps.

* `Fault.IsPlain`: a fault that neither names a method nor says that the pool is full.
* `Layout.Fails`, `Layout.Refuses`: the faults of looking for a layout, and those that come
  once it was found, each with its cause.
* `Draft.Asks`: the requests that the storing of a draft may come to.
* `Draft.safe_assemble`, `ClassBuilder.safe_complete`: **the storing of a method** is
  as safe as its requests.
* `Draft.extends_assemble`: a body that is stored leaves a pool that has grown.
-/

namespace FreshLocal

open PoolM BodyEvent

/-- A fault that neither names a method nor says that the pool is full. -/
def Fault.IsPlain : Fault → Prop
  | inMethod _ _ | constantPoolFull _ => False
  | _ => True

/-! ## The layout -/

namespace Layout

variable (layout : Layout)

/-- **The faults of looking for a layout**: a label that has two places or none, and code that is
too long. -/
inductive Fails : Fault → Prop
  | duplicate (l : Label) : Fails (.duplicateLabel l)
  | unplaced (l : Label) : Fails (.unplacedLabel l)
  | tooLong (length : Nat) : Fails (.codeTooLong length)

theorem Fails.isPlain {fault : Fault} (h : Fails fault) : fault.IsPlain := by
  cases h <;> trivial

theorem fails_placeOnto (items : List (BodyItem × Bool)) (o : Nat)
    (labels : Std.HashMap Label Nat) (done : List PlacedItem) :
    OnlyFaults Fails (placeOnto o labels items done) := by
  induction items generalizing o labels done with
  | nil => exact onlyFaults_ok _
  | cons x items ih =>
    obtain ⟨item, wide⟩ := x
    cases item with
    | label l =>
      simp only [placeOnto]
      split
      · exact onlyFaults_error (.duplicate l)
      · exact ih _ _ _
    | frame f => exact ih _ _ _
    | operation op => exact ih _ _ _

theorem fails_offset (l : Label) : OnlyFaults Fails (layout.offset l) := by
  unfold offset
  split
  · exact onlyFaults_ok _
  · exact onlyFaults_error (.unplaced l)

theorem fails_isTooFar (p : PlacedItem) : OnlyFaults Fails (layout.isTooFar p) := by
  unfold isTooFar
  split
  · exact onlyFaults_ok _
  · split
    · exact onlyFaults_ok _
    · exact ((layout.fails_offset _).bind fun _ _ => onlyFaults_ok _).bind
        fun _ _ => onlyFaults_ok _

theorem fails_checkLength : OnlyFaults Fails layout.checkLength := by
  unfold checkLength
  split
  · exact onlyFaults_ok _
  · exact onlyFaults_error (.tooLong _)

theorem fails_settle (rounds : Nat) (items : List (BodyItem × Bool)) :
    OnlyFaults Fails (settle rounds items) := by
  induction rounds generalizing items with
  | zero => exact (fails_placeOnto items 0 ∅ []).bind fun layout _ => layout.fails_checkLength
  | succ rounds ih =>
    refine (fails_placeOnto items 0 ∅ []).bind fun layout _ => ?_
    refine (OnlyFaults.mapM fun p _ => layout.fails_isTooFar p).bind fun far _ => ?_
    split
    · exact ih _
    · exact layout.fails_checkLength

/-- **A layout is found**, or it fails for one of these reasons. -/
theorem fails_ofItems (items : List BodyItem) : OnlyFaults Fails (ofItems items) :=
  fails_settle _ _

/-- **The faults of the steps behind a layout**, but for those of the pool: a label that has no
place, an offset or a distance that is too large, and events that do not go together. -/
inductive Refuses (layout : Layout) : Fault → Prop
  | unplaced (l : Label) : Refuses layout (.unplacedLabel l)
  | farLabel {l : Label} {o : Nat} (ho : layout.offset l = .ok o) (hlong : 65535 < o) :
      Refuses layout (.codeTooLong o)
  | farFrame {p : PlacedItem} (hp : p ∈ layout.items) (hlong : 65535 < p.offset) :
      Refuses layout (.codeTooLong p.offset)
  | farTarget {p : PlacedItem} {b : Branch Label} {l : Label} {o : Nat} (hp : p ∈ layout.items)
      (hitem : p.item = .operation (.branch b)) (hl : l ∈ b.targets)
      (ho : layout.offset l = .ok o) (hnarrow : p.wide = false) (hswitch : b.isSwitch = false)
      (hfar : isNear ((o : Int) - p.offset) = false) : Refuses layout (.jumpTooFar p.offset o)
  | conflict {before between after : List PlacedItem} {p p' : PlacedItem} {f f' : CodeFrame}
      (hitems : layout.items = before ++ p :: (between ++ p' :: after))
      (hp : p.item = .frame f) (hp' : p'.item = .frame f') (hsame : p.offset = p'.offset) :
      Refuses layout (.conflictingFrames p'.offset)
  | event (e : EventFault) : Refuses layout (.unexpectedEvent e)

variable {layout} in
theorem Refuses.isPlain {fault : Fault} (h : layout.Refuses fault) : fault.IsPlain := by
  cases h <;> trivial

theorem refuses_offset (l : Label) : OnlyFaults layout.Refuses (layout.offset l) := by
  unfold offset
  split
  · exact onlyFaults_ok _
  · exact onlyFaults_error (.unplaced l)

theorem refuses_offset16 (l : Label) : OnlyFaults layout.Refuses (layout.offset16 l) := by
  refine (layout.refuses_offset l).bind fun o ho => ?_
  split
  · exact onlyFaults_ok _
  · rename_i hlong
    exact onlyFaults_error (.farLabel ho (Nat.lt_of_not_le hlong))

theorem refuses_distance (source : Nat) (l : Label) :
    OnlyFaults layout.Refuses (layout.distance source l) :=
  (layout.refuses_offset l).bind fun _ _ => onlyFaults_ok _

/-- **A branch is refused** only for a narrow distance that is out of reach. -/
theorem refuses_encodeBranch {p : PlacedItem} {b : Branch Label} (hp : p ∈ layout.items)
    (hitem : p.item = .operation (.branch b)) :
    OnlyFaults layout.Refuses (layout.encodeBranch p b) := by
  refine OnlyFaults.map (Branch.onlyFaults_mapM fun l hl => ?_)
  refine (layout.refuses_distance _ _).bind fun d hd => ?_
  split
  · exact onlyFaults_ok _
  · rename_i hreach
    simp only [Bool.or_eq_true, not_or, Bool.not_eq_true] at hreach
    obtain ⟨⟨hnarrow, hswitch⟩, hfar⟩ := hreach
    refine (layout.refuses_offset l).bind fun o ho => ?_
    rw [distance, ho] at hd
    cases hd
    exact onlyFaults_error (.farTarget hp hitem hl ho hnarrow hswitch hfar)

theorem refuses_storeVariable (v : LocalVariable) :
    OnlyFaults layout.Refuses (layout.storeVariable v) := by
  refine (layout.refuses_offset16 v.start).bind fun start _ => ?_
  refine (layout.refuses_offset16 v.stop).bind fun stop _ => ?_
  split
  · exact onlyFaults_ok _
  · exact onlyFaults_error (.event _)

/-- Items without a frame leave no frame. -/
theorem frames_of_foldlM {items : List PlacedItem} {before after : Assembled}
    {p q : ConstantPool} (h : ∀ x ∈ items, ∀ f, x.item ≠ .frame f)
    (hrun : (items.foldlM layout.assembleItem before).run p = .ok after q) :
    after.frames = before.frames := by
  induction items generalizing before p with
  | nil =>
    obtain ⟨rfl, -⟩ := pure_eq_ok.1 hrun
    rfl
  | cons x items ih =>
    rw [List.foldlM_cons] at hrun
    obtain ⟨between, r, hitem, hrest⟩ := bind_eq_ok.1 hrun
    have hsame : between.frames = before.frames := by
      unfold assembleItem at hitem
      split at hitem
      · obtain ⟨rfl, -⟩ := pure_eq_ok.1 hitem
        rfl
      · obtain ⟨rfl, -⟩ := pure_eq_ok.1 hitem
        rfl
      · obtain ⟨bytes, r', -, hitem⟩ := bind_eq_ok.1 hitem
        obtain ⟨rfl, -⟩ := pure_eq_ok.1 hitem
        rfl
      · rename_i f hf
        exact absurd hf (h x List.mem_cons_self f)
    rw [ih (fun y hy => h y (List.mem_cons_of_mem _ hy)) hrest, hsame]

/-- **The last frame** is that of the items that were stored. -/
theorem lastFrame_assembleItem {layout : Layout} {before : List PlacedItem} {p : PlacedItem}
    {done next : Assembled} {pool pool' : ConstantPool}
    (hlast : done.lastFrame = (before.filterMap PlacedItem.frame?).getLast?.map Prod.fst)
    (h : (layout.assembleItem done p).run pool = .ok next pool') :
    next.lastFrame = ((before ++ [p]).filterMap PlacedItem.frame?).getLast?.map Prod.fst := by
  rw [List.filterMap_append]
  obtain ⟨l, hp, rfl, -⟩ | ⟨op, bytes, hp, -, rfl, -⟩ | ⟨f, d, stored, hp, -, -, -, rfl⟩ :=
    assembleItem_cases h
  · have hnone : p.frame? = none := by rw [PlacedItem.frame?, hp]
    rw [List.filterMap_cons_none hnone, List.filterMap_nil, List.append_nil, hlast]
  · have hnone : p.frame? = none := by rw [PlacedItem.frame?, hp]
    rw [List.filterMap_cons_none hnone, List.filterMap_nil, List.append_nil, hlast]
  · have hsome : p.frame? = some (p.offset, f) := by rw [PlacedItem.frame?, hp]
    rw [List.filterMap_cons_some hsome, List.filterMap_nil, List.getLast?_concat]
    rfl

/-- A frame that has no distance from the one before has the same offset. -/
theorem exists_of_distance?_eq_none {before : List PlacedItem} {last : Option Nat} {o : Nat}
    (hlast : last = (before.filterMap PlacedItem.frame?).getLast?.map Prod.fst)
    (h : StackMapFrame.distance? last o = none) :
    ∃ pre between p f, before = pre ++ p :: between ∧ p.item = .frame f ∧ p.offset = o := by
  cases hframe : (before.filterMap PlacedItem.frame?).getLast? with
  | none => rw [hlast, hframe] at h; cases h
  | some x =>
    obtain ⟨q, f⟩ := x
    rw [hlast, hframe] at h
    have hq : q = o := by
      by_contra hne
      simp [StackMapFrame.distance?, hne] at h
    have hmem := List.mem_of_getLast? hframe
    obtain ⟨p, hp, hf⟩ := List.mem_filterMap.1 hmem
    obtain ⟨hoffset, hitem⟩ := PlacedItem.frame?_eq_some.1 hf
    obtain ⟨pre, between, rfl⟩ := List.append_of_mem hp
    exact ⟨pre, between, p, f, rfl, hitem, hoffset.trans hq⟩

end Layout

/-! ## The steps that touch the pool -/

variable {I : ConstantPool → Prop} {P : Fault → Prop} {d : Draft} {layout : Layout}

/-- **What the storing of a draft may ask for**: the classes that its frames name, and the name of
each table that has an entry. -/
inductive Draft.Asks (d : Draft) : PoolRequest → Prop
  | frameClass {f : CodeFrame} {name : String} (hf : .frame f ∈ d.items.toList)
      (hname : .object name ∈ f.types) : Asks d (.className name)
  | frameTable {f : CodeFrame} (hf : .frame f ∈ d.items.toList) :
      Asks d (.text StackMapFrame.tableName)
  | lineTable {x : UInt16 × Label} (hx : x ∈ d.lines.toList) : Asks d (.text LineNumber.tableName)
  | variableTable {isGeneric : Bool} {v : LocalVariable}
      (hv : v ∈ (if isGeneric then d.genericLocals else d.locals).toList) :
      Asks d (.text (VariableEntry.tableName isGeneric))
  | annotationTable {a : AnnotatedType Label} (ha : a ∈ d.annotations.toList) :
      Asks d (.text (AnnotatedType.tableName a.visible))

/-- The text that is asked for, or the name of the class. -/
def PoolRequest.name : PoolRequest → String
  | text t => t
  | className name => name

/-- **A request is safe** if adding its text is, and adding a class is. -/
theorem PoolRequest.safe_index {r : PoolRequest} (hfull : ∀ index, P (.constantPoolFull index))
    (htext : ConstantPool.AddKeeps I (.utf8 r.name))
    (hclass : ∀ n, ConstantPool.AddKeeps I (.classRef n)) : Safe I P r.index := by
  cases r with
  | text t => exact ConstantPool.safe_textIndex hfull htext
  | className name => exact ConstantPool.safe_classIndex hfull htext hclass

/-- **A draft asks for names of tables** that its events belong to, and for the classes of the
frames among them. -/
theorem Draft.Asks.of_holds {events : List BodyEvent} {r : PoolRequest}
    (hd : d.Holds events) (h : d.Asks r) :
    (∃ table ∈ events.filterMap table?, r = .text table) ∨
      ∃ f n, .frame f ∈ events ∧ .object n ∈ f.types ∧ r = .className n := by
  have htable : ∀ {e : BodyEvent} {table : String}, e ∈ events → e.table? = some table →
      table ∈ events.filterMap table? := fun he ht => List.mem_filterMap.2 ⟨_, he, ht⟩
  have hframe : ∀ {f : CodeFrame}, .frame f ∈ d.items.toList → .frame f ∈ events := by
    intro f hf
    rw [hd.items] at hf
    exact event_mem hf
  cases h with
  | frameClass hf hname => exact .inr ⟨_, _, hframe hf, hname, rfl⟩
  | frameTable hf => exact .inl ⟨_, htable (hframe hf) rfl, rfl⟩
  | lineTable hx =>
    rw [hd.lines] at hx
    exact .inl ⟨_, htable (mem_lines.1 hx) rfl, rfl⟩
  | variableTable hv =>
    rw [hd.locals] at hv
    exact .inl ⟨_, htable (mem_locals.1 hv) rfl, rfl⟩
  | annotationTable ha =>
    rw [hd.annotations] at ha
    exact .inl ⟨_, htable (mem_annotations.1 ha) rfl, rfl⟩

/-- What is asked for is the name of a table, or a frame names it. -/
theorem Draft.Asks.name_of_holds {events : List BodyEvent} {r : PoolRequest} (hd : d.Holds events)
    (h : d.Asks r) :
    r.name ∈ CodePart.tableNames ∨ ∃ f, .frame f ∈ events ∧ .object r.name ∈ f.types := by
  obtain ⟨table, htable, rfl⟩ | ⟨f, n, hf, hn, rfl⟩ := h.of_holds hd
  · obtain ⟨e, -, he⟩ := List.mem_filterMap.1 htable
    exact .inl (mem_tableNames he)
  · exact .inr ⟨f, hf, hn⟩

section Steps

variable (hP : ∀ fault, layout.Refuses fault → P fault)

include hP

/-- A step that does not touch the pool is safe if its faults are. -/
theorem safe_of_refuses {α : Type} {e : Except Fault α} (h : OnlyFaults layout.Refuses e) :
    Safe I P (MonadExcept.ofExcept e : PoolM α) :=
  safe_ofExcept fun fault hfault => hP fault (h fault hfault)

theorem Safe.bind_refuses {α β : Type} {e : Except Fault α} {f : α → PoolM β}
    (h : OnlyFaults layout.Refuses e) (hf : ∀ a, e = .ok a → Safe I P (f a)) :
    Safe I P ((MonadExcept.ofExcept e : PoolM α) >>= f) :=
  .bind_ofExcept (fun fault hfault => hP fault (h fault hfault)) hf

/-- The classes of a frame are looked up. -/
theorem Layout.safe_storeTypes {f : CodeFrame}
    (hf : ∀ name, .object name ∈ f.types → Safe I P (ConstantPool.classIndex name)) :
    Safe I P (layout.storeTypes f) := by
  have htype : ∀ t ∈ f.types, Safe I P (t.mapM ConstantPool.classIndex
      fun l => (MonadExcept.ofExcept (layout.offset16 l) : PoolM UInt16)) := by
    intro t ht
    cases t with
    | object name => exact (hf name ht).map
    | uninitialized made => exact (safe_of_refuses hP (layout.refuses_offset16 made)).map
    | _ => exact safe_pure _
  cases f with
  | same | chop _ => exact safe_pure _
  | sameOne t => exact (htype t (List.mem_singleton_self t)).map
  | append more => exact (Safe.mapM htype).map
  | full locals stack =>
    exact (Safe.mapM fun t ht => htype t (List.mem_append_left _ ht)).map.seq
      (Safe.mapM fun t ht => htype t (List.mem_append_right _ ht))

theorem Layout.safe_storeFrame {f : CodeFrame} (distance : UInt16)
    (hf : ∀ name, .object name ∈ f.types → Safe I P (ConstantPool.classIndex name)) :
    Safe I P (layout.storeFrame distance f) := by
  have htypes : Safe I P (layout.storeTypes f) := Layout.safe_storeTypes hP hf
  cases f with
  | same | sameOne _ | full _ _ => exact htypes.map
  | chop count =>
    simp only [storeFrame]
    split
    · exact safe_pure _
    · exact safe_throw (hP _ (.event _))
  | append more =>
    simp only [storeFrame]
    split
    · exact htypes.map
    · exact safe_throw (hP _ (.event _))

/-- An item is stored behind those `before` it, which are followed by those `after`. -/
theorem Layout.safe_assembleItem {before after : List PlacedItem} {p : PlacedItem}
    {done : Assembled} (hitems : layout.items = before ++ p :: after)
    (hlast : done.lastFrame = (before.filterMap PlacedItem.frame?).getLast?.map Prod.fst)
    (hp : ∀ f, p.item = .frame f → ∀ name, .object name ∈ f.types →
      Safe I P (ConstantPool.classIndex name)) : Safe I P (layout.assembleItem done p) := by
  have hmem : p ∈ layout.items := by simp [hitems]
  unfold assembleItem
  split
  · exact safe_pure _
  · exact safe_pure _
  · rename_i b hb
    exact Safe.bind_refuses hP (layout.refuses_encodeBranch hmem hb) fun _ _ => safe_pure _
  · rename_i f hf
    split
    · rename_i hnone
      obtain ⟨before, between, x, g, rfl, hx, hsame⟩ := exists_of_distance?_eq_none hlast hnone
      rw [List.append_assoc, List.cons_append] at hitems
      exact safe_throw (hP _ (.conflict hitems hx hf hsame))
    · rename_i d hd
      split
      · exact (Layout.safe_storeFrame hP _ (hp f hf)).bind fun _ => safe_pure _
      · rename_i hlong
        have hle := StackMapFrame.le_of_distance? hd
        exact safe_throw (hP _ (.farFrame hmem (by omega)))

omit hP in
/-- A table asks for its name if it has an entry. -/
theorem safe_tableAttribute {α : Type} {name : String} {write : List α → Bytes} {entries : List α}
    (h : ∀ e ∈ entries, Safe I P (ConstantPool.textIndex name)) :
    Safe I P (tableAttribute name write entries) := by
  cases entries with
  | nil => exact safe_pure _
  | cons e entries =>
    exact ((h e List.mem_cons_self).bind fun _ => safe_pure _).bind fun _ => safe_pure _

theorem Draft.safe_lineTable (h : ∀ r, d.Asks r → Safe I P r.index) :
    Safe I P (d.lineTable layout) := by
  refine Safe.bind_refuses hP (OnlyFaults.mapM fun x _ => (layout.refuses_offset16 x.2).map) ?_
  intro lines hlines
  refine safe_tableAttribute fun e he => ?_
  obtain ⟨x, hx, -⟩ := mem_of_mapM hlines he
  exact h _ (.lineTable hx)

theorem Draft.safe_variableTable (h : ∀ r, d.Asks r → Safe I P r.index) (isGeneric : Bool) :
    Safe I P (d.variableTable layout isGeneric) := by
  refine Safe.bind_refuses hP (OnlyFaults.mapM fun v _ => layout.refuses_storeVariable v) ?_
  intro entries hentries
  refine safe_tableAttribute fun e he => ?_
  obtain ⟨v, hv, -⟩ := mem_of_mapM hentries he
  exact h _ (.variableTable hv)

theorem Draft.safe_annotationTable (h : ∀ r, d.Asks r → Safe I P r.index) (visible : Bool) :
    Safe I P (d.annotationTable layout visible) := by
  refine Safe.bind_refuses hP (OnlyFaults.mapM fun a _ =>
    AnnotatedType.onlyFaults_mapM fun l _ => layout.refuses_offset16 l) ?_
  intro stored hstored
  refine safe_tableAttribute fun e he => ?_
  obtain ⟨a, ha, -⟩ := mem_of_mapM hstored he
  obtain ⟨ha, hvisible⟩ := List.mem_filter.1 ha
  rw [← eq_of_beq hvisible]
  exact h _ (.annotationTable ha)

/-- **The storing of a draft that was laid out** is safe if what it asks for is. -/
theorem Draft.safe_assemble_laid (hlayout : Layout.ofItems d.items.toList = .ok layout)
    (h : ∀ r, d.Asks r → Safe I P r.index) : Safe I P d.assemble := by
  refine Safe.bind_ofExcept (hlayout ▸ onlyFaults_ok layout) fun found hfound => ?_
  obtain rfl : layout = found := Except.ok.inj (hlayout ▸ hfound)
  have hitems : ∀ p ∈ layout.items, ∀ f, p.item = .frame f → .frame f ∈ d.items.toList := by
    intro p hp f hf
    rw [← (Layout.ofItems_eq_ok hlayout).items, ← hf]
    exact List.mem_map_of_mem hp
  have hstored : Safe I P (layout.items.foldlM layout.assembleItem ⟨[], [], none⟩) := by
    refine Safe.foldlM_behind (R := fun before done =>
      done.lastFrame = (before.filterMap PlacedItem.frame?).getLast?.map Prod.fst) [] rfl ?_ ?_
    · intro before p after done hsplit hlast
      rw [List.nil_append] at hsplit
      have hp : p ∈ layout.items := by simp [hsplit]
      exact Layout.safe_assembleItem hP hsplit hlast fun f hf name hname =>
        h _ (.frameClass (hitems p hp f hf) hname)
    · intro before p done next _ _ hlast hnext
      exact Layout.lastFrame_assembleItem hlast hnext
  refine Safe.bind_of hstored ?_
  intro p done q hdone
  have hframes : ∀ e ∈ done.frames.reverse,
      Safe I P (ConstantPool.textIndex StackMapFrame.tableName) := by
    intro e he
    -- a frame was stored, so one of the items is a frame
    by_cases hsome : ∃ x ∈ layout.items, ∃ f, x.item = .frame f
    · obtain ⟨x, hx, f, hf⟩ := hsome
      exact h _ (.frameTable (hitems x hx f hf))
    · have hnone : ∀ x ∈ layout.items, ∀ f, x.item ≠ .frame f :=
        fun x hx f hf => hsome ⟨x, hx, f, hf⟩
      rw [layout.frames_of_foldlM hnone hdone] at he
      cases he
  refine Safe.bind_refuses hP (OnlyFaults.mapM fun x _ =>
    Handler.onlyFaults_mapM fun l _ => layout.refuses_offset16 l) fun _ _ => ?_
  refine (safe_tableAttribute hframes).bind fun _ => (Draft.safe_lineTable hP h).bind fun _ => ?_
  refine (Draft.safe_variableTable hP h false).bind fun _ => ?_
  refine (Draft.safe_variableTable hP h true).bind fun _ => ?_
  refine (Draft.safe_annotationTable hP h true).bind fun _ => ?_
  exact (Draft.safe_annotationTable hP h false).bind fun _ => safe_pure _

end Steps

section Plain

variable (hP : ∀ fault : Fault, fault.IsPlain → P fault)

include hP

/-- **The storing of a draft** is safe if what it asks for is. -/
theorem Draft.safe_assemble (h : ∀ r, d.Asks r → Safe I P r.index) : Safe I P d.assemble := by
  cases hlayout : Layout.ofItems d.items.toList with
  | error fault =>
    have hfaults : OnlyFaults P (Layout.ofItems d.items.toList) :=
      fun fault h => hP fault (Layout.fails_ofItems _ fault h).isPlain
    exact Safe.bind_ofExcept hfaults fun layout hok => by rw [hlayout] at hok; cases hok
  | ok layout =>
    exact Draft.safe_assemble_laid (fun fault hfault => hP fault hfault.isPlain) hlayout h

/-- **The storing of a method** is safe if what its body asks for is, and the name of the attribute
that holds it. -/
theorem ClassBuilder.safe_complete {m : Method} {body : Option Draft}
    (h : ∀ d, body = some d → Safe I P (ConstantPool.textIndex CodeAttribute.name) ∧
      ∀ r, d.Asks r → Safe I P r.index) : Safe I P (complete m body) := by
  cases body with
  | none => exact safe_pure m
  | some d =>
    obtain ⟨hname, hasks⟩ := h d rfl
    refine (Draft.safe_assemble hP hasks).bind fun code => ?_
    exact (hname.bind fun _ => safe_pure _).bind fun _ => safe_pure _

end Plain

/-! ## What is left behind -/

/-- A step that only puts constants behind those that the pool has, and leaves a pool that a class
file can hold. -/
def PoolM.Extends {α : Type} (x : PoolM α) : Prop :=
  ∀ ⦃p : ConstantPool⦄ ⦃a : α⦄ ⦃q : ConstantPool⦄,
    p.Stored → x.run p = .ok a q → p.Grows q ∧ q.Stored

/-- **The storing of a body** only puts constants behind those that the pool has. -/
theorem Draft.extends_assemble {events : List BodyEvent} (hd : d.Holds events)
    (hframes : ∀ f, .frame f ∈ events → f.ShortNames) : d.assemble.Extends := by
  intro p c q hp h
  have hrequest : ∀ r, d.Asks r →
      Safe (fun q => p.Grows q ∧ q.Stored) (fun _ => True) r.index := by
    intro r hr
    have hname : (Constant.utf8 r.name).Fits := by
      obtain htable | ⟨f, hf, hn⟩ := hr.name_of_holds hd
      · exact shortText_tableNames _ htable
      · exact hframes f hf _ hn
    have hclass : ∀ n, (Constant.classRef n).Fits := fun n => trivial
    refine r.safe_index (fun _ => trivial) ?_ fun n => ?_
    · exact (ConstantPool.addKeeps_grows p _).and (ConstantPool.addKeeps_stored hname)
    · exact (ConstantPool.addKeeps_grows p _).and (ConstantPool.addKeeps_stored (hclass n))
  have hsafe : Safe (fun q => p.Grows q ∧ q.Stored) (fun _ => True) d.assemble :=
    Draft.safe_assemble (fun _ _ => trivial) hrequest
  exact hsafe.ok p c q ⟨.refl p, hp⟩ h

end FreshLocal
