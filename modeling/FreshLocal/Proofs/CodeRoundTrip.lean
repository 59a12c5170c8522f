import FreshLocal.Proofs.BodyAssembly

/-!
# Code that was assembled is read back

A draft may come from anywhere; nothing is asked about its labels but that it was
assembled, and that a jump has an operation to go to. Then its code is read back
as the operations at the offsets of the layout, and each offset in a table that
was stored is the offset that the layout gives to the label.

The constant pool plays no part here: it decides which index stands for a class,
not where anything stands.

* `Draft.Jumps`: what a draft needs for its code to be read back.
* `Draft.StoredAt`: a draft is stored at the offsets of a layout.
* `Draft.storedAt_of_assemble`: **a draft that was assembled** is stored so.
-/

namespace FreshLocal

variable {layout : Layout} {pool pool' : ConstantPool} {d : Draft}

namespace Draft

/-- **The jumps of a draft can be read back.** A table has a target, its keys are numbers of 32
bits, and behind the label that a jump goes to there is an operation. -/
structure Jumps (d : Draft) : Prop where
  fits : ∀ op, .operation op ∈ d.items.toList → op.Fits
  followed : ∀ op, .operation op ∈ d.items.toList → ∀ l ∈ op.targets,
    ∃ front behind next, d.items.toList = front ++ .label l :: behind ∧ .operation next ∈ behind

/-- The labels that the draft refers to. -/
def references (d : Draft) : List Label :=
  d.items.toList.flatMap (·.event.references) ++ d.handlers.toList.flatMap Handler.positions ++
    d.lines.toList.map Prod.snd ++
    (d.locals.toList ++ d.genericLocals.toList).flatMap (fun v => [v.start, v.stop]) ++
    d.annotations.toList.flatMap (·.target.positions)

/-- The body of the attribute for a table, unless the table is empty. -/
def tableBody {α : Type} (write : List α → Bytes) (entries : List α) : List Bytes :=
  if entries.isEmpty then [] else [write entries]

/-- The bodies of the attributes of a draft that is stored at the offsets of a layout. -/
def attributeBodies (d : Draft) (layout : Layout) (frames : List StackMapFrame) : List Bytes :=
  let annotations := fun visible =>
    (d.annotations.toList.filter (·.visible == visible)).map (·.map layout.offsetD16)
  tableBody StackMapFrame.writeTable frames ++
    tableBody LineNumber.writeTable
      (d.lines.toList.map fun x => ⟨layout.offsetD16 x.2, x.1⟩) ++
    tableBody VariableEntry.writeTable (d.locals.toList.map layout.variableEntry) ++
    tableBody VariableEntry.writeTable (d.genericLocals.toList.map layout.variableEntry) ++
    tableBody AnnotatedType.writeTable (annotations true) ++
    tableBody AnnotatedType.writeTable (annotations false) ++
    d.attributes.toList.map Attribute.body

/-- **A draft is stored at the offsets of a layout.** -/
structure StoredAt (d : Draft) (layout : Layout) (c : CodeAttribute) : Prop where
  /-- The layout has the items of the draft in their order. -/
  items : layout.items.map PlacedItem.item = d.items.toList
  length : c.code.length = layout.length
  /-- The code is read back as the operations among the items, with offsets for labels. -/
  operations : disassemble c.code = .ok (layout.items.filterMap layout.operation?)
  /-- The offset of a label in 16 bits is the one that the layout gives to it. -/
  exact : ∀ l ∈ d.references, layout.offset l = .ok (layout.offsetD l) ∧
    (layout.offsetD16 l).toNat = layout.offsetD l
  handlers : c.handlers = d.handlers.toList.map (·.map layout.offsetD16)
  tables : ∃ frames : List StackMapFrame,
    c.attributes.map Attribute.body = d.attributeBodies layout frames ∧
    List.Forall₂ (fun x y => y.1 = x.1 ∧ y.2.positions = x.2.positions.map layout.offsetD16)
      (layout.items.filterMap PlacedItem.frame?)
      (StackMapFrame.withOffsets (frames.map fun f => (f.distance, f.frame)))
  /-- The start of a variable and its length give its end. -/
  ranges : ∀ v ∈ d.locals.toList ++ d.genericLocals.toList,
    (layout.variableEntry v).start.toNat + (layout.variableEntry v).length.toNat =
      layout.offsetD v.stop

end Draft

/-! ## Positions of frames -/

namespace Frame

theorem gives_of_mapM {t : CodeType} {t' : StoredType}
    (h : (t.mapM ConstantPool.classIndex fun l => MonadExcept.ofExcept (layout.offset16 l)).run
      pool = .ok t' pool') : Option.Rel layout.Gives t.position? t'.position? := by
  cases t with
  | object name =>
    obtain ⟨index, -, rfl⟩ := PoolM.map_eq_ok.1 h
    exact .none
  | uninitialized l =>
    obtain ⟨o, ho, rfl⟩ := PoolM.map_eq_ok.1 h
    obtain ⟨hoffset, -⟩ := PoolM.ofExcept_eq_ok.1 ho
    exact .some (Layout.gives_of_offset16 hoffset)
  | _ =>
    obtain ⟨rfl, -⟩ := PoolM.pure_eq_ok.1 h
    exact .none

theorem gives_of_types {ts : List CodeType} {ts' : List StoredType}
    (h : (ts.mapM (VerificationType.mapM ConstantPool.classIndex fun l =>
      MonadExcept.ofExcept (layout.offset16 l))).run pool = .ok ts' pool') :
    List.Forall₂ layout.Gives (ts.filterMap VerificationType.position?)
      (ts'.filterMap VerificationType.position?) := by
  refine List.rel_filterMap ?_ (PoolM.forall₂_of_mapM h)
  rintro t t' ⟨p, q, ht⟩
  exact gives_of_mapM ht

end Frame

namespace Layout

/-- **The positions of a frame that is stored** are the offsets of its labels. -/
theorem gives_of_storeTypes {f : CodeFrame} {f' : Frame PoolIndex UInt16}
    (h : (layout.storeTypes f).run pool = .ok f' pool') :
    List.Forall₂ layout.Gives f.positions f'.positions := by
  cases f with
  | same | chop _ =>
    obtain ⟨rfl, -⟩ := PoolM.pure_eq_ok.1 h
    exact .nil
  | sameOne t =>
    obtain ⟨t', ht, rfl⟩ := PoolM.map_eq_ok.1 h
    refine List.rel_filterMap (R := fun s s' => Option.Rel layout.Gives s.position? s'.position?)
      (fun _ _ h => h) (.cons (Frame.gives_of_mapM ht) .nil)
  | append more =>
    obtain ⟨more', hmore, rfl⟩ := PoolM.map_eq_ok.1 h
    exact Frame.gives_of_types hmore
  | full locals stack =>
    obtain ⟨g, p, stack', hg, hstack, rfl⟩ := PoolM.seq_eq_ok.1 h
    obtain ⟨locals', hlocals, rfl⟩ := PoolM.map_eq_ok.1 hg
    simp only [Frame.positions, Frame.types, List.filterMap_append]
    exact List.rel_append (Frame.gives_of_types hlocals) (Frame.gives_of_types hstack)

theorem gives_of_storeFrame {distance : UInt16} {f : CodeFrame} {stored : StackMapFrame}
    (h : (layout.storeFrame distance f).run pool = .ok stored pool') :
    stored.distance = distance ∧ List.Forall₂ layout.Gives f.positions stored.frame.positions := by
  have types (h : ((⟨distance, ·⟩) <$> layout.storeTypes f).run pool = .ok stored pool') :
      stored.distance = distance ∧
        List.Forall₂ layout.Gives f.positions stored.frame.positions := by
    obtain ⟨f', hf', rfl⟩ := PoolM.map_eq_ok.1 h
    exact ⟨rfl, gives_of_storeTypes hf'⟩
  cases f with
  | same | sameOne _ | full _ _ => exact types h
  | chop count =>
    simp only [storeFrame] at h
    split at h
    · obtain ⟨rfl, -⟩ := PoolM.pure_eq_ok.1 h
      exact ⟨rfl, .nil⟩
    · exact absurd h PoolM.throw_ne_ok
  | append more =>
    simp only [storeFrame] at h
    split at h
    · exact types h
    · exact absurd h PoolM.throw_ne_ok

/-- **The frames of items that were stored** stand at the offsets of the items. -/
theorem assembleItems_positions {o stop : Nat} {ps : List PlacedItem} (hlaid : Laid o ps stop)
    {done done' : Assembled} (hlast : ∀ q, done.lastFrame = some q → q ≤ o)
    (h : (ps.foldlM layout.assembleItem done).run pool = .ok done' pool') :
    ∃ frames : List StackMapFrame, done'.frames = frames.reverse ++ done.frames ∧
      List.Forall₂ (fun x y => y.1 = x.1 ∧ List.Forall₂ layout.Gives x.2.positions y.2.positions)
        (ps.filterMap PlacedItem.frame?)
        (StackMapFrame.withOffsetsOnto done.lastFrame
          (frames.map fun f => (f.distance, f.frame)) []) := by
  -- over the items: no frame so far stands behind the offset reached, so that the distance to the
  -- next one leads to its offset
  induction ps generalizing o done pool with
  | nil =>
    obtain ⟨rfl, -⟩ := PoolM.pure_eq_ok.1 h
    exact ⟨[], by simp, .nil⟩
  | cons p ps ih =>
    obtain ⟨rfl, hrest⟩ := hlaid
    rw [List.foldlM_cons] at h
    obtain ⟨next, pool₁, hnext, hlater⟩ := PoolM.bind_eq_ok.1 h
    obtain ⟨l, hp, rfl, -⟩ | ⟨op, bs, hp, -, rfl, -⟩ | ⟨f, n, stored, hp, hn, hn16, hstored, rfl⟩ :=
      assembleItem_cases hnext
    · have hnone : p.frame? = none := by rw [PlacedItem.frame?, hp]
      rw [List.filterMap_cons_none hnone]
      exact ih hrest (fun q hq => (hlast q hq).trans (Nat.le_add_right _ _)) hlater
    · have hnone : p.frame? = none := by rw [PlacedItem.frame?, hp]
      rw [List.filterMap_cons_none hnone]
      exact @ih _ _ hrest { done with code := bs :: done.code }
        (fun q hq => (hlast q hq).trans (Nat.le_add_right _ _)) hlater
    · have hsome : p.frame? = some (p.offset, f) := by rw [PlacedItem.frame?, hp]
      obtain ⟨hdistance, hpositions⟩ := gives_of_storeFrame hstored
      have hoffset : StackMapFrame.offset done.lastFrame stored.distance.toNat = p.offset := by
        rw [hdistance, UInt16.toNat_ofNat', Nat.mod_eq_of_lt (by omega)]
        exact StackMapFrame.offset_of_distance? hn hlast
      obtain ⟨frames, hframes, hall⟩ :=
        ih hrest (fun q hq => by cases hq; exact Nat.le_add_right _ _) hlater
      refine ⟨stored :: frames, by simp [hframes], ?_⟩
      rw [List.filterMap_cons_some hsome, List.map_cons, StackMapFrame.withOffsetsOnto_cons,
        hoffset]
      exact .cons ⟨rfl, hpositions⟩ hall

/-- A label among the items has an offset. -/
theorem offset_of_mem {l : Label}
    (hlabels : ∀ l, layout.labels[l]? = layout.items.findSome? (PlacedItem.labelled? l))
    (hl : .label l ∈ layout.items.map PlacedItem.item) :
    layout.offset l = .ok (layout.offsetD l) := by
  obtain ⟨p, hp, hitem⟩ := List.mem_map.1 hl
  have hsome : (layout.items.findSome? (PlacedItem.labelled? l)).isSome := by
    rw [List.findSome?_isSome_iff]
    exact ⟨p, hp, by rw [PlacedItem.labelled?, hitem]; simp⟩
  obtain ⟨o, ho⟩ := Option.isSome_iff_exists.1 hsome
  rw [offset, offsetD, hlabels, ho]
  rfl

theorem Sound.offset_of_mem {items : List BodyItem} {l : Label} (h : layout.Sound items)
    (hl : .label l ∈ items) : layout.offset l = .ok (layout.offsetD l) :=
  Layout.offset_of_mem h.labels (h.items ▸ hl)

/-- A label in a frame that was stored has an offset. -/
theorem Sound.offset_of_frame {items : List BodyItem} {l : Label} {f : CodeFrame}
    {stored : List (Nat × Frame PoolIndex UInt16)} (h : layout.Sound items)
    (hstored : List.Forall₂
      (fun x y => y.1 = x.1 ∧ List.Forall₂ layout.Gives x.2.positions y.2.positions)
      (layout.items.filterMap PlacedItem.frame?) stored)
    (hf : .frame f ∈ items) (hl : l ∈ f.positions) :
    layout.offset l = .ok (layout.offsetD l) := by
  rw [← h.items] at hf
  obtain ⟨p, hp, hitem⟩ := List.mem_map.1 hf
  have hmem : (p.offset, f) ∈ layout.items.filterMap PlacedItem.frame? :=
    List.mem_filterMap.2 ⟨p, hp, by rw [PlacedItem.frame?, hitem]⟩
  obtain ⟨y, -, -, hgives⟩ := exists_of_mem_right hstored.flip hmem
  obtain ⟨o, -, ho, -⟩ := exists_of_mem_right hgives.flip hl
  exact ho

/-- The offset of a label is one of 16 bits. -/
theorem Sound.toNat_of_offset {items : List BodyItem} {l : Label} (h : layout.Sound items)
    (hl : layout.offset l = .ok (layout.offsetD l)) :
    (layout.offsetD16 l).toNat = layout.offsetD l := by
  obtain ⟨hlabel, -⟩ := offset_eq_ok hl
  rw [h.labels] at hlabel
  obtain ⟨p, hp, hfound⟩ := List.exists_of_findSome?_eq_some hlabel
  have hp_offset : layout.offsetD l = p.offset := by
    unfold PlacedItem.labelled? at hfound
    split at hfound
    · split at hfound
      · exact (Option.some.inj hfound).symm
      · cases hfound
    · cases hfound
  have hle := (h.laid.le.2 p hp).2
  have hlength := h.length
  rw [offsetD16, UInt16.toNat_ofNat']
  omega

end Layout

/-! ## A draft -/

/-- A label in front of an operation has a place before the last operation. -/
theorem BodyEvent.placeOf_lt {op : Operation Label} {behind : List BodyEvent} (l : Label)
    (front : List BodyEvent) (hop : .operation op ∈ behind) :
    ∃ k, placeOf l (front ++ .label l :: behind) = some k ∧
      k < (operations (front ++ .label l :: behind)).length := by
  induction front with
  | nil =>
    refine ⟨0, by simp [placeOf], ?_⟩
    have hmem : op ∈ operations behind := mem_operations.2 hop
    rw [List.nil_append, length_operations_cons]
    have := List.length_pos_of_mem hmem
    omega
  | cons e front ih =>
    obtain ⟨k, hk, hlt⟩ := ih
    rw [List.cons_append, length_operations_cons]
    cases e with
    | label l' =>
      rw [placeOf]
      by_cases hll' : l' = l
      · rw [if_pos hll']
        exact ⟨0, rfl, by omega⟩
      · rw [if_neg hll']
        exact ⟨k, hk, by omega⟩
    | operation op' =>
      rw [placeOf, hk]
      exact ⟨k + 1, rfl, by simp only [size]; omega⟩
    | _ => exact ⟨k, hk, by omega⟩

namespace Draft

theorem body_of_tableAttribute {α : Type} {name : String} {write : List α → Bytes}
    {entries : List α} {attributes : List Attribute}
    (h : (tableAttribute name write entries).run pool = .ok attributes pool') :
    attributes.map Attribute.body = tableBody write entries := by
  unfold tableBody
  obtain ⟨rfl, rfl, -⟩ | ⟨hentries, index, -, rfl⟩ := tableAttribute_cases h
  · rfl
  · rw [if_neg fun hempty => hentries (List.isEmpty_iff.1 hempty)]
    rfl

/-- The items of a draft as events. -/
theorem filterMap_event (items : List BodyItem) :
    (items.map BodyItem.event).filterMap BodyEvent.item? = items := by
  rw [List.filterMap_map]
  have hsome : BodyEvent.item? ∘ BodyItem.event = some := by
    funext item
    cases item <;> rfl
  rw [hsome, List.filterMap_some]

/-- A jump goes to the start of an operation. -/
theorem Jumps.mem_starts (hd : d.Jumps) (hsound : layout.Sound d.items.toList)
    {op : Operation Label} (hop : .operation op ∈ d.items.toList) {l : Label}
    (hl : l ∈ op.targets) : layout.offsetD l ∈ starts layout.items := by
  obtain ⟨front, behind, next, hitems, hnext⟩ := hd.followed op hop l hl
  have hevents : d.items.toList.map BodyItem.event = front.map BodyItem.event ++
      .label l :: behind.map BodyItem.event := by
    rw [hitems, List.map_append, List.map_cons]
    rfl
  have hnext' : .operation next ∈ behind.map BodyItem.event := List.mem_map.2 ⟨_, hnext, rfl⟩
  obtain ⟨k, hk, hlt⟩ := BodyEvent.placeOf_lt l (front.map BodyItem.event) hnext'
  rw [← hevents] at hk hlt
  rw [← filterMap_event d.items.toList] at hsound
  exact hsound.mem_starts hk hlt

/-- **The code of a draft is read back.** -/
theorem Jumps.disassemble (hd : d.Jumps) (hsound : layout.Sound d.items.toList)
    {done : Assembled}
    (h : (layout.items.foldlM layout.assembleItem ⟨[], [], none⟩).run pool = .ok done pool') :
    done.code.reverse.flatten.length = layout.length ∧
      FreshLocal.disassemble done.code.reverse.flatten =
        .ok (layout.items.filterMap layout.operation?) := by
  -- a target is the start of an operation, so its offset is inside of the code
  have hencodable : ∀ p ∈ layout.items, p.Encodable layout := by
    intro p hp op hop
    have hmem : .operation op ∈ d.items.toList := by
      rw [← hsound.items, ← hop]
      exact List.mem_map_of_mem hp
    refine ⟨hd.fits op hmem, fun l hl => ?_, hsound.wide p hp⟩
    exact (hsound.laid.pairwise_starts.2 _ (hd.mem_starts hsound hmem hl)).2
  obtain ⟨bytes, hcode, hend, htiles⟩ :=
    Layout.assembleItems_code hsound.laid hsound.length (Nat.le_refl _) hencodable h
  have hbytes : done.code.reverse.flatten = bytes := hcode
  have hlength : bytes.length = layout.length := by omega
  rw [hbytes]
  -- and what is read accepts the targets, since they are offsets at which it found operations
  refine ⟨hlength, disassemble_of_tiles (hlength ▸ htiles) fun x hx t ht => ?_⟩
  have hstarts : (layout.items.filterMap layout.operation?).map Prod.fst = starts layout.items := by
    rw [starts, List.map_filterMap]
    refine List.filterMap_congr fun p _ => ?_
    unfold Layout.operation? PlacedItem.start?
    cases p.item <;> rfl
  obtain ⟨p, hp, hpx⟩ := List.mem_filterMap.1 hx
  unfold Layout.operation? at hpx
  split at hpx
  · rename_i op hop
    cases hpx
    rw [Operation.targets_map] at ht
    obtain ⟨l, hl, rfl⟩ := List.mem_map.1 ht
    have hmem : .operation op ∈ d.items.toList := by
      rw [← hsound.items, ← hop]
      exact List.mem_map_of_mem hp
    rw [hstarts]
    exact hd.mem_starts hsound hmem hl
  · cases hpx

/-- **A draft that was assembled** is stored at the offsets of a layout, the one that was found for
its items, if its jumps can be read back: the code is as long as the layout says and is read back
as the operations of the draft in their order, each at its offset and with the offsets of its
labels; and so is every offset in the tables the offset of its label. -/
theorem storedAt_of_assemble {c : CodeAttribute} (hd : d.Jumps)
    (h : d.assemble.run pool = .ok c pool') :
    ∃ layout, Layout.ofItems d.items.toList = .ok layout ∧ d.StoredAt layout c := by
  obtain ⟨layout, pool₁, hrun, h⟩ := PoolM.bind_eq_ok.1 h
  obtain ⟨hlayout, rfl⟩ := PoolM.ofExcept_eq_ok.1 hrun
  obtain ⟨done, pool₂, hdone, h⟩ := PoolM.bind_eq_ok.1 h
  obtain ⟨handlers, pool₃, hrun', h⟩ := PoolM.bind_eq_ok.1 h
  obtain ⟨hhandlers, rfl⟩ := PoolM.ofExcept_eq_ok.1 hrun'
  obtain ⟨frames, pool₄, hframes, h⟩ := PoolM.bind_eq_ok.1 h
  obtain ⟨lines, pool₅, hlines, h⟩ := PoolM.bind_eq_ok.1 h
  obtain ⟨locals, pool₆, hlocals, h⟩ := PoolM.bind_eq_ok.1 h
  obtain ⟨genericLocals, pool₇, hgenerics, h⟩ := PoolM.bind_eq_ok.1 h
  obtain ⟨visible, pool₈, hvisible, h⟩ := PoolM.bind_eq_ok.1 h
  obtain ⟨invisible, pool₉, hinvisible, h⟩ := PoolM.bind_eq_ok.1 h
  obtain ⟨rfl, rfl⟩ := PoolM.pure_eq_ok.1 h
  have hsound := Layout.ofItems_eq_ok hlayout
  obtain ⟨hlength, hcode⟩ := hd.disassemble hsound hdone
  obtain ⟨stored, hstored, hpositions⟩ :=
    Layout.assembleItems_positions hsound.laid (fun q hq => by cases hq) hdone
  rw [List.append_nil] at hstored
  rw [hstored, List.reverse_reverse] at hframes
  obtain ⟨rfl, hhandlerLabels⟩ := handlers_give hhandlers
  obtain ⟨hlineLabels, hlines⟩ := lineTable_gives hlines
  obtain ⟨hlocalLabels, hlocals⟩ := variableTable_gives hlocals
  obtain ⟨hgenericLabels, hgenerics⟩ := variableTable_gives hgenerics
  obtain ⟨hvisibleLabels, hvisible⟩ := annotationTable_gives hvisible
  obtain ⟨hinvisibleLabels, hinvisible⟩ := annotationTable_gives hinvisible
  have hvariables : ∀ v ∈ d.locals.toList ++ d.genericLocals.toList,
      layout.Gives v.start (layout.offsetD16 v.start) ∧
        layout.Gives v.stop (layout.offsetD16 v.stop) ∧
        layout.offsetD16 v.start ≤ layout.offsetD16 v.stop := by
    intro v hv
    obtain hv | hv := List.mem_append.1 hv
    · exact hlocalLabels v hv
    · exact hgenericLabels v hv
  -- each label that the draft refers to was looked up for the place that names it
  have hfound : ∀ l ∈ d.references, layout.offset l = .ok (layout.offsetD l) := by
    intro l hl
    simp only [references, List.mem_append, List.mem_flatMap, List.mem_map] at hl
    obtain (((⟨item, hitem, hl⟩ | ⟨x, hx, hl⟩) | ⟨x, hx, rfl⟩) | ⟨v, hv, hl⟩) | ⟨a, ha, hl⟩ := hl
    · cases item with
      | label l' => cases hl
      | frame f => exact hsound.offset_of_frame hpositions hitem hl
      | operation op =>
        obtain ⟨front, behind, next, hitems, -⟩ := hd.followed op hitem l hl
        exact hsound.offset_of_mem (by rw [hitems]; simp)
    · exact (hhandlerLabels x hx l hl).1
    · exact (hlineLabels x hx).1
    · obtain ⟨hstart, hstop, -⟩ := hvariables v (List.mem_append.2 hv)
      simp only [List.mem_cons, List.not_mem_nil, or_false] at hl
      obtain rfl | rfl := hl
      · exact hstart.1
      · exact hstop.1
    · cases hv : a.visible with
      | true => exact (hvisibleLabels a (by simp [ha, hv]) l hl).1
      | false => exact (hinvisibleLabels a (by simp [ha, hv]) l hl).1
  refine ⟨layout, hlayout, hsound.items, hlength, hcode,
    fun l hl => ⟨hfound l hl, hsound.toNat_of_offset (hfound l hl)⟩, rfl, ⟨stored, ?_, ?_⟩, ?_⟩
  · simp only [List.map_append, body_of_tableAttribute hframes, body_of_tableAttribute hlines,
      body_of_tableAttribute hlocals, body_of_tableAttribute hgenerics,
      body_of_tableAttribute hvisible, body_of_tableAttribute hinvisible, attributeBodies,
      Bool.false_eq_true, if_false, if_true]
  · refine hpositions.imp fun x y hxy => ⟨hxy.1, ?_⟩
    rw [← List.forall₂_eq_eq_eq, List.forall₂_map_right_iff]
    exact hxy.2.flip.imp fun o l ho => ho.2
  · intro v hv
    obtain ⟨-, hstop, hle⟩ := hvariables v hv
    rw [Layout.toNat_stop_variableEntry hle]
    exact hsound.toNat_of_offset hstop.1

/-- A jump to itself, which an exception handler guards. -/
def loopDraft : Draft :=
  { Draft.empty 1 0 with
    items := #[.label ⟨0⟩, .operation (.branch (.goto ⟨0⟩))]
    handlers := #[⟨⟨0⟩, ⟨0⟩, ⟨0⟩, none⟩] }

/-- Its layout. -/
def loopLayout : Layout :=
  ⟨[⟨0, .label ⟨0⟩, false⟩, ⟨0, .operation (.branch (.goto ⟨0⟩)), false⟩],
    Std.HashMap.insert ∅ ⟨0⟩ 0, 3⟩

theorem loopLayout_offset : loopLayout.offset ⟨0⟩ = .ok 0 := by
  simp [Layout.offset, loopLayout]

theorem loopLayout_found : Layout.ofItems loopDraft.items.toList = .ok loopLayout := by
  have hplace : Layout.place [(.label ⟨0⟩, false), (.operation (.branch (.goto ⟨0⟩)), false)] =
      .ok loopLayout := by
    simp [Layout.place, Layout.placeOnto, loopLayout]
    rfl
  refine Except.bind_eq_ok.2 ⟨_, hplace, Except.bind_eq_ok.2 ⟨[false, false], ?_, rfl⟩⟩
  refine mapM_eq_ok.2 (.cons rfl (.cons ?_ .nil))
  exact Except.bind_eq_ok.2 ⟨0, Except.bind_eq_ok.2 ⟨0, loopLayout_offset, rfl⟩, rfl⟩

/-- The code of the loop is its jump at the offset 0, back to the offset 0. -/
theorem storedAt_of_assemble_loop : ∃ c pool layout, loopDraft.Jumps ∧
    loopDraft.assemble.run .empty = .ok c pool ∧
    Layout.ofItems loopDraft.items.toList = .ok layout ∧ loopDraft.StoredAt layout c := by
  have hd : loopDraft.Jumps := by
    refine ⟨fun op hop => ?_, fun op hop l hl => ?_⟩
    · simp [loopDraft] at hop
      subst hop
      trivial
    · simp [loopDraft] at hop
      subst hop
      obtain rfl := List.mem_singleton.1 hl
      exact ⟨[], [_], _, rfl, List.mem_singleton_self _⟩
  have h16 : loopLayout.offset16 ⟨0⟩ = .ok 0 :=
    Except.bind_eq_ok.2 ⟨0, loopLayout_offset, rfl⟩
  have hbranch : loopLayout.encodeBranch ⟨0, .operation (.branch (.goto ⟨0⟩)), false⟩
      (.goto ⟨0⟩) = .ok [0xa7, 0, 0] := by
    refine Except.map_eq_ok.2 ⟨.goto 0, Except.map_eq_ok.2 ⟨0, ?_, rfl⟩, rfl⟩
    exact Except.bind_eq_ok.2 ⟨0, Except.bind_eq_ok.2 ⟨0, loopLayout_offset, rfl⟩, rfl⟩
  obtain ⟨c, pool, h⟩ : ∃ c pool, loopDraft.assemble.run .empty = .ok c pool := by
    refine ⟨⟨1, 0, [0xa7, 0, 0], [⟨0, 0, 0, none⟩], []⟩, .empty, ?_⟩
    refine PoolM.bind_eq_ok.2 ⟨_, _, PoolM.ofExcept_eq_ok.2 ⟨loopLayout_found, rfl⟩, ?_⟩
    refine PoolM.bind_eq_ok.2 ⟨⟨[[0xa7, 0, 0]], [], none⟩, .empty, ?_, ?_⟩
    · refine PoolM.bind_eq_ok.2 ⟨_, _, rfl, PoolM.bind_eq_ok.2 ⟨_, _, ?_, rfl⟩⟩
      exact PoolM.bind_eq_ok.2 ⟨_, _, PoolM.ofExcept_eq_ok.2 ⟨hbranch, rfl⟩, rfl⟩
    · refine PoolM.bind_eq_ok.2 ⟨[⟨0, 0, 0, none⟩], _, PoolM.ofExcept_eq_ok.2 ⟨?_, rfl⟩, rfl⟩
      refine mapM_eq_ok.2 (.cons ?_ .nil)
      simp [Handler.mapM, h16]
      rfl
  obtain ⟨layout, hlayout, hstored⟩ := storedAt_of_assemble hd h
  exact ⟨c, pool, layout, hd, h, hlayout, hstored⟩

end Draft

end FreshLocal
