import FreshLocal.Proofs.LaidBody
import FreshLocal.Proofs.TableAssembly

/-!
# Bodies are stored

A draft holds what the events of a body say, kind by kind. When it is assembled,
each table becomes an attribute that is read back, and together they make the
body at the offsets of the layout.

* `Draft.Holds`: what a draft holds after some events.
* `Draft.lineTable_gives`, `Draft.variableTable_gives`, `Draft.annotationTable_gives`,
  `Draft.handlers_give`: tables are written with the offsets of labels.
* `Draft.assemble_eq_ok`: **a body that was assembled** is the one at the offsets
  of its layout.
* `Draft.read_assembled`: it has the content of the events, and is read back from
  its bytes if there are not too many.
-/

namespace FreshLocal

open BodyEvent

variable {pool pool' : ConstantPool} {events : List BodyEvent} {d : Draft} {layout : Layout}
  {attributes : List Attribute}

namespace Draft

/-- What a draft holds after some events. -/
structure Holds (d : Draft) (events : List BodyEvent) : Prop where
  items : d.items.toList = events.filterMap item?
  handlers : d.handlers.toList = events.filterMap handler?
  lines : d.lines.toList = events.filterMap line?
  locals : ∀ generic, (if generic then d.genericLocals else d.locals).toList =
    events.filterMap (local? generic)
  annotations : d.annotations.toList = events.filterMap annotation?
  attributes : d.attributes.toList = events.filterMap attribute?
  /-- The limits are those that were sent last. -/
  limits : ∀ x, (events.filterMap limits?).getLast? = some x → x = (d.maxStack, d.maxLocals)

theorem holds_empty (maxStack maxLocals : UInt16) :
    (empty maxStack maxLocals).Holds [.start maxStack maxLocals] :=
  ⟨rfl, rfl, rfl, fun generic => by cases generic <;> rfl, rfl, rfl, fun x hx => by cases hx⟩

theorem toList_push (d : Draft) (e : BodyEvent) :
    (d.push e).items.toList = d.items.toList ++ (item? e).toList ∧
      (d.push e).handlers.toList = d.handlers.toList ++ (handler? e).toList ∧
      (d.push e).lines.toList = d.lines.toList ++ (line? e).toList ∧
      (∀ generic, (if generic then (d.push e).genericLocals else (d.push e).locals).toList =
        (if generic then d.genericLocals else d.locals).toList ++ (local? generic e).toList) ∧
      (d.push e).annotations.toList = d.annotations.toList ++ (annotation? e).toList ∧
      (d.push e).attributes.toList = d.attributes.toList ++ (attribute? e).toList ∧
      ((d.push e).maxStack, (d.push e).maxLocals) = (limits? e).getD (d.maxStack, d.maxLocals) := by
  cases e with
  | localVariable isGeneric v =>
    cases isGeneric <;>
      simp [push, item?, handler?, line?, local?, annotation?, attribute?, limits?]
  | _ => simp [push, item?, handler?, line?, local?, annotation?, attribute?, limits?]

/-- **A draft holds the event that it took.** -/
theorem Holds.push (h : d.Holds events) (e : BodyEvent) : (d.push e).Holds (events ++ [e]) := by
  have hone {α : Type} (p : BodyEvent → Option α) :
      (events ++ [e]).filterMap p = events.filterMap p ++ (p e).toList := by
    cases hp : p e <;> simp [hp]
  obtain ⟨hitems, hhandlers, hlines, hlocals, hannotations, hattributes, hlimits⟩ := d.toList_push e
  refine ⟨by rw [hone, hitems, h.items], by rw [hone, hhandlers, h.handlers],
    by rw [hone, hlines, h.lines], fun generic => by rw [hone, hlocals, h.locals],
    by rw [hone, hannotations, h.annotations], by rw [hone, hattributes, h.attributes],
    fun x hx => ?_⟩
  rw [hlimits]
  rw [hone] at hx
  cases hp : limits? e with
  | none =>
    rw [hp, Option.toList_none, List.append_nil] at hx
    exact h.limits x hx
  | some y =>
    rw [hp, Option.toList_some, List.getLast?_concat, Option.some.injEq] at hx
    exact hx.symm

theorem Holds.foldl (h : d.Holds events) (more : List BodyEvent) :
    (more.foldl Draft.push d).Holds (events ++ more) := by
  induction more generalizing d events with
  | nil => rwa [List.append_nil]
  | cons e more ih =>
    rw [List.append_cons]
    exact ih (h.push e)

end Draft

namespace Layout

/-- **Each operation can be stored** and read back. -/
theorem Sound.encodable (h : layout.Sound (events.filterMap item?))
    (hall : StorableAll pool events) : ∀ p ∈ layout.items, p.Encodable layout := by
  intro p hp op hop
  have hevent := h.event_mem hp
  rw [hop] at hevent
  obtain ⟨k, hfits, htargets⟩ := hall.storable hevent
  refine ⟨hfits, fun l hl => ?_, h.wide p hp⟩
  obtain ⟨j, hj, hplace⟩ := htargets l hl
  exact (h.laid.pairwise_starts.2 _ (h.mem_starts hplace hj)).2

/-- **Each item can be stored** and read back. -/
theorem Sound.fine (h : layout.Sound (events.filterMap item?)) (hall : StorableAll pool events)
    (hbound : Bounded events) : ∀ p ∈ layout.items, p.Fine layout := by
  intro p hp
  unfold PlacedItem.Fine
  split
  · trivial
  · rename_i f hf
    have hevent := h.event_mem hp
    rw [hf] at hevent
    obtain ⟨k, hk⟩ := hall.storable hevent
    exact ⟨hk.2.1, fun locals stack hfull => hbound.frames locals stack (hfull ▸ hevent)⟩
  · rename_i op hop
    exact hop ▸ h.encodable hall p hp op hop

/-- **An annotation can be written**, with the offsets of its labels. -/
theorem Sound.fits_annotation (h : layout.Sound (events.filterMap item?))
    (hall : StorableAll pool events) {a : AnnotatedType Label} (ha : .annotatedType a ∈ events) :
    (a.map layout.offsetD16).Fits := by
  obtain ⟨k, hfits, hplaced⟩ := hall.storable ha
  refine AnnotatedType.fits_of_map (fun l hl l' hl' hle => ?_) hfits
  obtain ⟨j, hj⟩ := Option.isSome_iff_exists.1 (hplaced l hl)
  obtain ⟨j', hj'⟩ := Option.isSome_iff_exists.1 (hplaced l' hl')
  rw [hj, hj', Option.getD_some, Option.getD_some] at hle
  rw [UInt16.le_iff_toNat_le, h.toNat_offsetD16 (hplaced l hl), h.toNat_offsetD16 (hplaced l' hl')]
  exact h.offsetD_mono hj hj' hle

/-- The offset of the label is found, and the position is this offset. -/
def Gives (layout : Layout) (l : Label) (o : UInt16) : Prop :=
  layout.offset l = .ok (layout.offsetD l) ∧ o = layout.offsetD16 l

theorem gives_of_offset16 {l : Label} {o : UInt16} (h : layout.offset16 l = .ok o) :
    layout.Gives l o := by
  obtain ⟨hlabel, ho, -⟩ := offset16_eq_ok h
  exact ⟨by rw [offset, hlabel], ho⟩

theorem storeVariable_eq_ok {v : LocalVariable} {entry : VariableEntry}
    (h : layout.storeVariable v = .ok entry) : entry = layout.variableEntry v ∧
      layout.Gives v.start (layout.offsetD16 v.start) ∧
      layout.Gives v.stop (layout.offsetD16 v.stop) ∧
      layout.offsetD16 v.start ≤ layout.offsetD16 v.stop := by
  obtain ⟨start, hstart, h⟩ := Except.bind_eq_ok.1 h
  obtain ⟨stop, hstop, h⟩ := Except.bind_eq_ok.1 h
  obtain ⟨hstartFound, rfl⟩ := gives_of_offset16 hstart
  obtain ⟨hstopFound, rfl⟩ := gives_of_offset16 hstop
  split at h
  · rename_i hle
    cases h
    exact ⟨rfl, ⟨hstartFound, rfl⟩, ⟨hstopFound, rfl⟩, hle⟩
  · cases h

end Layout

namespace Draft

/-! The tables of a draft are written with the offsets of their labels. -/

theorem lineTable_gives (h : (d.lineTable layout).run pool = .ok attributes pool') :
    (∀ x ∈ d.lines.toList, layout.Gives x.2 (layout.offsetD16 x.2)) ∧
      (tableAttribute LineNumber.tableName LineNumber.writeTable
        (d.lines.toList.map fun x => ⟨layout.offsetD16 x.2, x.1⟩)).run pool =
          .ok attributes pool' := by
  obtain ⟨lines, p, hrun, h⟩ := PoolM.bind_eq_ok.1 h
  obtain ⟨hlines, rfl⟩ := PoolM.ofExcept_eq_ok.1 hrun
  obtain ⟨hall, rfl⟩ := mapM_ok (g := fun x => (⟨layout.offsetD16 x.2, x.1⟩ : LineNumber)) hlines
    fun x _ y hy => by
      obtain ⟨o, ho, rfl⟩ := Except.map_eq_ok.1 hy
      rw [(Layout.offset16_eq_ok ho).2.1]
  refine ⟨fun x hx => ?_, h⟩
  obtain ⟨o, ho, heq⟩ := Except.map_eq_ok.1 (hall x hx)
  obtain ⟨rfl, -⟩ := LineNumber.mk.inj heq
  exact Layout.gives_of_offset16 ho

theorem variableTable_gives {generic : Bool}
    (h : (d.variableTable layout generic).run pool = .ok attributes pool') :
    let vs := (if generic then d.genericLocals else d.locals).toList
    (∀ v ∈ vs, layout.Gives v.start (layout.offsetD16 v.start) ∧
      layout.Gives v.stop (layout.offsetD16 v.stop) ∧
      layout.offsetD16 v.start ≤ layout.offsetD16 v.stop) ∧
      (tableAttribute (VariableEntry.tableName generic) VariableEntry.writeTable
        (vs.map layout.variableEntry)).run pool = .ok attributes pool' := by
  intro vs
  obtain ⟨entries, p, hrun, h⟩ := PoolM.bind_eq_ok.1 h
  obtain ⟨hentries, rfl⟩ := PoolM.ofExcept_eq_ok.1 hrun
  obtain ⟨hall, rfl⟩ := mapM_ok (g := layout.variableEntry) hentries
    fun x _ y hy => (Layout.storeVariable_eq_ok hy).1
  exact ⟨fun v hv => (Layout.storeVariable_eq_ok (hall v hv)).2, h⟩

theorem annotationTable_gives {visible : Bool}
    (h : (d.annotationTable layout visible).run pool = .ok attributes pool') :
    let annotations := d.annotations.toList.filter (·.visible == visible)
    (∀ a ∈ annotations, ∀ l ∈ a.target.positions, layout.Gives l (layout.offsetD16 l)) ∧
      (tableAttribute (AnnotatedType.tableName visible) AnnotatedType.writeTable
        (annotations.map (·.map layout.offsetD16))).run pool = .ok attributes pool' := by
  intro annotations
  obtain ⟨stored, p, hrun, h⟩ := PoolM.bind_eq_ok.1 h
  obtain ⟨hstored, rfl⟩ := PoolM.ofExcept_eq_ok.1 hrun
  obtain ⟨hall, rfl⟩ := mapM_ok (g := fun a => AnnotatedType.map layout.offsetD16 a) hstored
    fun x _ y hy => (AnnotatedType.mapM_ok hy fun l _ o ho => (Layout.offset16_eq_ok ho).2.1).2
  refine ⟨fun a ha l hl => Layout.gives_of_offset16 ?_, h⟩
  exact (AnnotatedType.mapM_ok (hall a ha) fun l _ o ho => (Layout.offset16_eq_ok ho).2.1).1 l hl

theorem handlers_give {handlers : List (Handler UInt16)}
    (h : d.handlers.toList.mapM (·.mapM layout.offset16) = .ok handlers) :
    handlers = d.handlers.toList.map (·.map layout.offsetD16) ∧
      ∀ x ∈ d.handlers.toList, ∀ l ∈ x.positions, layout.Gives l (layout.offsetD16 l) := by
  obtain ⟨hall, rfl⟩ := mapM_ok (g := fun x => Handler.map layout.offsetD16 x) h
    fun x _ y hy => (Handler.mapM_ok hy fun l _ o ho => (Layout.offset16_eq_ok ho).2.1).2
  refine ⟨rfl, fun x hx l hl => Layout.gives_of_offset16 ?_⟩
  exact (Handler.mapM_ok (hall x hx) fun l _ o ho => (Layout.offset16_eq_ok ho).2.1).1 l hl

/-! The tables of a draft are read back, one after the other. -/

theorem lineTable_eq_ok (hd : d.Holds events) (hpool : pool.Stored) (hbound : Bounded events)
    (h : (d.lineTable layout).run pool = .ok attributes pool') :
    pool.Grows pool' ∧ pool'.Stored ∧ StoredTable events LineNumber.tableName
      (.lines (layout.body events d.maxStack d.maxLocals).lines) attributes pool' := by
  obtain ⟨-, h⟩ := lineTable_gives h
  rw [hd.lines] at h
  have hlength : ((events.filterMap line?).map fun x =>
      (⟨layout.offsetD16 x.2, x.1⟩ : LineNumber)).length =
      (events.filter (·.table? = some LineNumber.tableName)).length := by
    rw [List.length_map, length_lines]
  refine tableAttribute_eq_ok (by simp [CodePart.tableNames]) hpool hlength
    (fun P a hP hname hbody => ?_) id h
  refine CodePart.read_lines hname ?_
  rw [hbody]
  exact LineNumber.readTable_write (hlength ▸ hbound.tables _)

theorem variableTable_eq_ok (hd : d.Holds events) (hpool : pool.Stored) (hbound : Bounded events)
    {generic : Bool} (h : (d.variableTable layout generic).run pool = .ok attributes pool') :
    pool.Grows pool' ∧ pool'.Stored ∧ StoredTable events (VariableEntry.tableName generic)
      (.locals generic ((events.filterMap (local? generic)).map layout.variableEntry))
      attributes pool' ∧
      ∀ v, .localVariable generic v ∈ events →
        layout.offsetD16 v.start ≤ layout.offsetD16 v.stop := by
  obtain ⟨hall, h⟩ := variableTable_gives h
  rw [hd.locals] at hall h
  have hlength : ((events.filterMap (local? generic)).map layout.variableEntry).length =
      (events.filter (·.table? = some (VariableEntry.tableName generic))).length := by
    rw [List.length_map, length_locals]
  have htable : _ ∧ _ ∧ StoredTable events (VariableEntry.tableName generic)
      (.locals generic ((events.filterMap (local? generic)).map layout.variableEntry))
      attributes pool' := tableAttribute_eq_ok
    (by cases generic <;> simp [CodePart.tableNames]) hpool hlength
    (fun P a hP hname hbody => by
      refine CodePart.read_locals hname ?_
      rw [hbody]
      exact VariableEntry.readTable_write generic (hlength ▸ hbound.tables _)) id h
  obtain ⟨hgrows, hpool', hstored⟩ := htable
  exact ⟨hgrows, hpool', hstored, fun v hv => (hall v (mem_locals.2 hv)).2.2⟩

theorem annotationTable_eq_ok {P : ConstantPool} (hd : d.Holds events) (hpool : pool.Stored)
    (hsound : layout.Sound (events.filterMap item?)) (hall : StorableAll P events)
    (hbound : Bounded events) {visible : Bool}
    (h : (d.annotationTable layout visible).run pool = .ok attributes pool') :
    pool.Grows pool' ∧ pool'.Stored ∧ StoredTable events (AnnotatedType.tableName visible)
      (.annotations (((events.filterMap annotation?).filter (·.visible == visible)).map
        (·.map layout.offsetD16))) attributes pool' := by
  obtain ⟨-, h⟩ := annotationTable_gives h
  rw [hd.annotations] at h
  have hlength : (((events.filterMap annotation?).filter (·.visible == visible)).map
      fun a => AnnotatedType.map layout.offsetD16 a).length =
      (events.filter (·.table? = some (AnnotatedType.tableName visible))).length := by
    rw [List.length_map, length_annotations]
  refine tableAttribute_eq_ok (by cases visible <;> simp [CodePart.tableNames]) hpool hlength
    (fun P a hP hname hbody => ?_) id h
  refine CodePart.read_annotations hname ?_
  rw [hbody]
  refine AnnotatedType.readTable_write (hlength ▸ hbound.tables _) fun a ha => ?_
  obtain ⟨a', ha', rfl⟩ := List.mem_map.1 ha
  obtain ⟨hmem, hvisible⟩ := List.mem_filter.1 ha'
  exact ⟨hsound.fits_annotation hall (mem_annotations.1 hmem), eq_of_beq hvisible⟩

/-- The table of frames, once the items are stored. -/
theorem frameTable_eq_ok (hpool : pool.Stored) (hsound : layout.Sound (events.filterMap item?))
    (hbound : Bounded events) {bytes : Bytes} {frames : List StackMapFrame}
    (hitems : Layout.StoredItems layout 0 none layout.items layout.length bytes frames pool)
    (h : (tableAttribute StackMapFrame.tableName StackMapFrame.writeTable frames).run pool =
      .ok attributes pool') :
    pool.Grows pool' ∧ pool'.Stored ∧ StoredTable events StackMapFrame.tableName
      (.frames (layout.body events d.maxStack d.maxLocals).frames) attributes pool' := by
  have hlength : frames.length =
      (events.filter (·.table? = some StackMapFrame.tableName)).length := by
    rw [hitems.count, ← length_frames 0, Layout.frames_events hsound, List.length_map]
  have hempty : frames = [] → (layout.body events d.maxStack d.maxLocals).frames = [] := by
    rintro rfl
    have hnone := List.length_eq_zero_iff.1 hitems.count.symm
    simp only [Layout.body, hnone, List.map_nil]
  refine tableAttribute_eq_ok (by simp [CodePart.tableNames]) hpool hlength
    (fun P a hP hname hbody => ?_) hempty h
  refine CodePart.read_frames hname ?_ (hitems.read P hP)
  rw [hbody]
  exact StackMapFrame.readTable_write (hlength ▸ hbound.tables _) hitems.fits

/-- The tables of a body, in the order in which they are stored. -/
def tables (layout : Layout) (events : List BodyEvent) (maxStack maxLocals : UInt16) :
    List (String × CodePart) :=
  let annotations := fun visible => ((events.filterMap annotation?).filter
    (·.visible == visible)).map (·.map layout.offsetD16)
  [(StackMapFrame.tableName, .frames (layout.body events maxStack maxLocals).frames),
    (LineNumber.tableName, .lines (layout.body events maxStack maxLocals).lines),
    (VariableEntry.tableName false,
      .locals false ((events.filterMap (local? false)).map layout.variableEntry)),
    (VariableEntry.tableName true,
      .locals true ((events.filterMap (local? true)).map layout.variableEntry)),
    (AnnotatedType.tableName true, .annotations (annotations true)),
    (AnnotatedType.tableName false, .annotations (annotations false))]

theorem map_fst_tables (maxStack maxLocals : UInt16) :
    (tables layout events maxStack maxLocals).map Prod.fst = CodePart.tableNames := rfl

/-- The body that such tables make. -/
theorem ofAttribute_of_tables {P : ConstantPool} {c : CodeAttribute}
    (hoperations : disassemble c.code = .ok (layout.items.filterMap layout.operation?))
    (hlength : c.code.length = layout.length)
    (hhandlers : c.handlers = (events.filterMap handler?).map (·.map layout.offsetD16))
    (hempty : ∀ x ∈ tables layout events c.maxStack c.maxLocals,
      x.1 ∉ events.filterMap table? → x.2.Empty)
    (hparts : c.attributes.mapM (CodePart.read P) =
      .ok (((tables layout events c.maxStack c.maxLocals).filter
        (·.1 ∈ events.filterMap table?)).map Prod.snd ++
          (events.filterMap attribute?).map CodePart.other)) :
    Body.ofAttribute P c = .ok (layout.body events c.maxStack c.maxLocals) := by
  have hframes := flatMap_tables (p := CodePart.frames?)
    fun x hx hx' => (hempty x hx hx').picks_none.1
  have hlines := flatMap_tables (p := CodePart.lines?)
    fun x hx hx' => (hempty x hx hx').picks_none.2.1
  have hlocals := fun generic => flatMap_tables (p := CodePart.locals? generic)
    fun x hx hx' => (hempty x hx hx').picks_none.2.2.1 generic
  have hannotations := flatMap_tables (p := CodePart.annotations?)
    fun x hx hx' => (hempty x hx hx').picks_none.2.2.2.1
  have hothers := flatMap_tables (p := CodePart.other?)
    fun x hx hx' => (hempty x hx hx').picks_none.2.2.2.2
  refine Except.bind_eq_ok.2 ⟨_, hoperations, Except.bind_eq_ok.2 ⟨_, hparts, ?_⟩⟩
  simp only [List.flatMap_append, hframes, hlines, hlocals, hannotations, hothers, hlength,
    hhandlers]
  simp [tables, Layout.body, List.flatMap_map, CodePart.frames?, CodePart.lines?,
    CodePart.locals?, CodePart.annotations?, CodePart.other?]

/-- The operations of the layout are read back. -/
theorem disassemble_tiles (hsound : layout.Sound (events.filterMap item?))
    (hall : StorableAll pool events) {bytes : Bytes} (hlength : bytes.length = layout.length)
    (htiles : Tiles layout.length 0 bytes (layout.items.filterMap layout.operation?)) :
    disassemble bytes = .ok (layout.items.filterMap layout.operation?) := by
  refine disassemble_of_tiles (hlength ▸ htiles) fun x hx t ht => ?_
  have hmem : x.2 ∈ (layout.body events 0 0).operations.map Prod.snd := List.mem_map_of_mem hx
  rw [Layout.operations_body hsound] at hmem
  obtain ⟨op, hop, hx⟩ := List.mem_map.1 hmem
  rw [← hx, Operation.targets_map] at ht
  obtain ⟨l, hl, rfl⟩ := List.mem_map.1 ht
  obtain ⟨k, -, htargets⟩ := hall.storable (mem_operations.1 hop)
  obtain ⟨j, hj, hplace⟩ := htargets l hl
  have hstart := hsound.mem_starts hplace hj
  rwa [← Layout.starts_body events 0 0] at hstart

/-- The handlers at the offsets of the layout. -/
theorem handlers_eq_ok {handlers : List (Handler UInt16)} (hd : d.Holds events)
    (hall : StorableAll pool events) (hbound : Bounded events)
    (h : d.handlers.toList.mapM (·.mapM layout.offset16) = .ok handlers) :
    handlers = (events.filterMap handler?).map (·.map layout.offsetD16) ∧
      handlers.length ≤ 65535 ∧ ∀ x ∈ handlers, x.Fits := by
  obtain ⟨rfl, -⟩ := handlers_give h
  rw [hd.handlers]
  refine ⟨rfl, by rw [List.length_map]; exact hbound.handlers, fun x hx => ?_⟩
  obtain ⟨x', hx', rfl⟩ := List.mem_map.1 hx
  obtain ⟨k, hfits, -⟩ := hall.storable (mem_handlers.1 hx')
  exact hfits

/-- **The steps of an assembly**: the layout of the items, what the items are stored as, the
handlers, and one table after the other, each in the pool that the one before left. -/
theorem assemble_iff {c : CodeAttribute} : d.assemble.run pool = .ok c pool' ↔
    ∃ layout done handlers frames lines locals generics visible invisible p₁ p₂ p₃ p₄ p₅ p₆,
      Layout.ofItems d.items.toList = .ok layout ∧
      (layout.items.foldlM layout.assembleItem ⟨[], [], none⟩).run pool = .ok done p₁ ∧
      d.handlers.toList.mapM (·.mapM layout.offset16) = .ok handlers ∧
      (tableAttribute StackMapFrame.tableName StackMapFrame.writeTable done.frames.reverse).run p₁ =
        .ok frames p₂ ∧
      (d.lineTable layout).run p₂ = .ok lines p₃ ∧
      (d.variableTable layout false).run p₃ = .ok locals p₄ ∧
      (d.variableTable layout true).run p₄ = .ok generics p₅ ∧
      (d.annotationTable layout true).run p₅ = .ok visible p₆ ∧
      (d.annotationTable layout false).run p₆ = .ok invisible pool' ∧
      c = ⟨d.maxStack, d.maxLocals, done.code.reverse.flatten, handlers,
        frames ++ lines ++ locals ++ generics ++ visible ++ invisible ++ d.attributes.toList⟩ := by
  constructor
  · intro h
    obtain ⟨layout, p, hrun, h⟩ := PoolM.bind_eq_ok.1 h
    obtain ⟨hlayout, rfl⟩ := PoolM.ofExcept_eq_ok.1 hrun
    obtain ⟨done, p₁, hdone, h⟩ := PoolM.bind_eq_ok.1 h
    obtain ⟨handlers, p, hrun', h⟩ := PoolM.bind_eq_ok.1 h
    obtain ⟨hhandlers, rfl⟩ := PoolM.ofExcept_eq_ok.1 hrun'
    obtain ⟨frames, p₂, hframes, h⟩ := PoolM.bind_eq_ok.1 h
    obtain ⟨lines, p₃, hlines, h⟩ := PoolM.bind_eq_ok.1 h
    obtain ⟨locals, p₄, hlocals, h⟩ := PoolM.bind_eq_ok.1 h
    obtain ⟨generics, p₅, hgenerics, h⟩ := PoolM.bind_eq_ok.1 h
    obtain ⟨visible, p₆, hvisible, h⟩ := PoolM.bind_eq_ok.1 h
    obtain ⟨invisible, p₇, hinvisible, h⟩ := PoolM.bind_eq_ok.1 h
    obtain ⟨rfl, rfl⟩ := PoolM.pure_eq_ok.1 h
    exact ⟨layout, done, handlers, frames, lines, locals, generics, visible, invisible, p₁, p₂, p₃,
      p₄, p₅, p₆, hlayout, hdone, hhandlers, hframes, hlines, hlocals, hgenerics, hvisible,
      hinvisible, rfl⟩
  · rintro ⟨layout, done, handlers, frames, lines, locals, generics, visible, invisible, p₁, p₂, p₃,
      p₄, p₅, p₆, hlayout, hdone, hhandlers, hframes, hlines, hlocals, hgenerics, hvisible,
      hinvisible, rfl⟩
    refine PoolM.bind_eq_ok.2 ⟨layout, pool, PoolM.ofExcept_eq_ok.2 ⟨hlayout, rfl⟩, ?_⟩
    refine PoolM.bind_eq_ok.2 ⟨done, p₁, hdone, ?_⟩
    refine PoolM.bind_eq_ok.2 ⟨handlers, p₁, PoolM.ofExcept_eq_ok.2 ⟨hhandlers, rfl⟩, ?_⟩
    refine PoolM.bind_eq_ok.2 ⟨frames, p₂, hframes, PoolM.bind_eq_ok.2 ⟨lines, p₃, hlines, ?_⟩⟩
    refine PoolM.bind_eq_ok.2 ⟨locals, p₄, hlocals, ?_⟩
    refine PoolM.bind_eq_ok.2 ⟨generics, p₅, hgenerics, ?_⟩
    refine PoolM.bind_eq_ok.2 ⟨visible, p₆, hvisible, ?_⟩
    exact PoolM.bind_eq_ok.2 ⟨invisible, pool', hinvisible, rfl⟩

/-- **A body that was assembled** stands for the body at the offsets of its layout. -/
theorem assemble_eq_ok {c : CodeAttribute} (hd : d.Holds events) (hpool : pool.Stored)
    (hall : StorableAll pool events) (hbound : Bounded events)
    (h : d.assemble.run pool = .ok c pool') :
    pool.Grows pool' ∧ pool'.Stored ∧ c.attributes.length ≤ 65535 ∧
      (c.handlers.length ≤ 65535 ∧ ∀ x ∈ c.handlers, x.Fits) ∧
      ∃ layout, Layout.ofItems (events.filterMap item?) = .ok layout ∧ layout.Ordered events ∧
        ∀ P, pool'.Grows P →
          Body.ofAttribute P c = .ok (layout.body events d.maxStack d.maxLocals) := by
  obtain ⟨layout, done, handlers, frames, lines, locals, genericLocals, visible, invisible, pool₁,
    pool₂, pool₃, pool₄, pool₅, pool₆, hlayout, hdone, hhandlers, hframes, hlines, hlocals,
    hgenerics, hvisible, hinvisible, rfl⟩ := assemble_iff.1 h
  rw [hd.items] at hlayout
  have hsound := Layout.ofItems_eq_ok hlayout
  -- step by step, each in the pool that the one before left
  obtain ⟨hgrows₂, hpool₂, bytes, frameList, hcode, hdoneFrames, hitems⟩ :=
    Layout.assembleItems_eq_ok hsound.laid hsound.length (Nat.le_refl _)
      (hsound.fine hall hbound) hpool (fun q hq => by cases hq) hdone
  rw [hdoneFrames, List.append_nil, List.reverse_reverse] at hframes
  obtain ⟨hgrows₄, hpool₄, hframes⟩ := frameTable_eq_ok (d := d) hpool₂ hsound hbound hitems hframes
  obtain ⟨hgrows₅, hpool₅, hlines⟩ := lineTable_eq_ok hd hpool₄ hbound hlines
  obtain ⟨hgrows₆, hpool₆, hlocals, horder⟩ := variableTable_eq_ok hd hpool₅ hbound hlocals
  obtain ⟨hgrows₇, hpool₇, hgenerics, horder'⟩ := variableTable_eq_ok hd hpool₆ hbound hgenerics
  obtain ⟨hgrows₈, hpool₈, hvisible⟩ := annotationTable_eq_ok hd hpool₇ hsound hall hbound hvisible
  obtain ⟨hgrows₉, hpool', hinvisible⟩ :=
    annotationTable_eq_ok hd hpool₈ hsound hall hbound hinvisible
  have hgrows₇₉ := hgrows₈.trans hgrows₉
  have hgrows₅₉ := (hgrows₆.trans hgrows₇).trans hgrows₇₉
  have hgrows₄₉ := hgrows₅.trans hgrows₅₉
  have hgrows := (hgrows₂.trans hgrows₄).trans hgrows₄₉
  have htables : List.Forall₂ (fun x attributes => StoredTable events x.1 x.2 attributes pool')
      (tables layout events d.maxStack d.maxLocals)
      [frames, lines, locals, genericLocals, visible, invisible] :=
    .cons (hframes.grows hgrows₄₉) <| .cons (hlines.grows hgrows₅₉) <|
      .cons (hlocals.grows (hgrows₇.trans hgrows₇₉)) <| .cons (hgenerics.grows hgrows₇₉) <|
      .cons (hvisible.grows hgrows₉) <| .cons hinvisible .nil
  -- in the last pool all tables have their names
  obtain ⟨hcount, hread⟩ := flatten_storedTables htables
  rw [map_fst_tables] at hcount
  have hflatten : frames ++ lines ++ locals ++ genericLocals ++ visible ++ invisible =
      [frames, lines, locals, genericLocals, visible, invisible].flatten := by simp
  obtain ⟨hhandlers, hbounded⟩ := handlers_eq_ok hd hall hbound hhandlers
  refine ⟨hgrows, hpool', ?_, hbounded, layout, hlayout, fun g => ?_, fun P hP => ?_⟩
  · have hcounted := hall.count
    rw [attributeCount] at hcounted
    rw [hflatten, List.length_append, hcount, hd.attributes]
    exact hcounted
  · cases g with
    | false => exact horder
    | true => exact horder'
  · have hcode' : done.code.reverse.flatten = bytes := by rw [hcode]; rfl
    have hlength : bytes.length = layout.length := by simpa using hitems.length
    have hothers : d.attributes.toList.mapM (CodePart.read P) =
        .ok ((events.filterMap attribute?).map CodePart.other) := by
      rw [hd.attributes, mapM_eq_ok, List.forall₂_map_right_iff, List.forall₂_same]
      intro a ha
      obtain ⟨k, -, name, hname, hother⟩ := hall.storable (mem_attributes.1 ha)
      exact CodePart.read_other ⟨name, (hgrows.trans hP).utf8 hname, hother⟩
    refine ofAttribute_of_tables (c := ⟨d.maxStack, d.maxLocals, done.code.reverse.flatten,
      handlers, _⟩) ?_ ?_ hhandlers (fun x hx hnone => ?_) ?_
    · rw [hcode']; exact disassemble_tiles hsound hall hlength hitems.tiles
    · rw [hcode']; exact hlength
    · obtain ⟨attributes, -, hstored⟩ := exists_of_mem_right htables.flip hx
      exact hstored.empty hnone
    · rw [hflatten, mapM_eq_ok]
      exact List.rel_append (mapM_eq_ok.1 (hread P hP)) (mapM_eq_ok.1 hothers)

theorem limits_eq (hd : d.Holds events) (hall : StorableAll pool events) :
    (events.filterMap limits?).getLast? = some (d.maxStack, d.maxLocals) := by
  cases h : (events.filterMap limits?).getLast? with
  | none => exact absurd (List.getLast?_eq_none_iff.1 h) hall.limits
  | some x => rw [hd.limits x h]

end Draft

/-- A code attribute that is short fits, if its lists do. -/
theorem CodeAttribute.fits_of_length {c : CodeAttribute} (h : c.write.length < 2 ^ 32)
    (hhandlers : c.handlers.length ≤ 65535 ∧ ∀ x ∈ c.handlers, x.Fits)
    (hattributes : c.attributes.length ≤ 65535) : c.Fits := by
  rw [write, List.length_append, List.length_append, List.length_append] at h
  refine ⟨by omega, hhandlers, hattributes, fun a ha => ?_⟩
  have hle := Bytes.length_le_counted Attribute.write ha
  have hbody := a.length_body_le
  unfold Attribute.Fits
  omega

/-- **A body that was assembled** has the content of its events. It is read back from its bytes, if
these are not more than the length of an attribute can say. -/
theorem Draft.read_assembled {c : CodeAttribute} (hd : d.Holds events) (hpool : pool.Stored)
    (hall : StorableAll pool events) (hbound : Bounded events)
    (h : d.assemble.run pool = .ok c pool') :
    pool.Grows pool' ∧ pool'.Stored ∧ ∃ b : Body, b.events.2 = none ∧
      PlacedBody.ofEvents? b.events.1 = PlacedBody.ofEvents? events ∧
      ∀ P, pool'.Grows P → Body.ofAttribute P c = .ok b ∧
        (c.write.length < 2 ^ 32 → Body.read P c.write = .ok b) := by
  obtain ⟨hgrows, hpool', hattributes, hhandlers, layout, hlayout, hordered, hread⟩ :=
    assemble_eq_ok hd hpool hall hbound h
  have hsound := Layout.ofItems_eq_ok hlayout
  have hbody := Layout.sound_body d.maxStack d.maxLocals hsound hall hordered
  have hnone := Layout.events_body d.maxStack d.maxLocals hsound hall
  refine ⟨hgrows, hpool', _, hnone, ?_, fun P hP => ⟨hread P hP, fun hlength => ?_⟩⟩
  · rw [Body.ofEvents?_events hbody hnone,
      Layout.placed_body hsound hall hordered (limits_eq hd hall)]
  · have hfits := CodeAttribute.fits_of_length hlength hhandlers hattributes
    exact Body.read_eq_ok (CodeAttribute.read_write hfits) (hread P hP) hbody

end FreshLocal
