import FreshLocal.Proofs.ClassAssembly
import FreshLocal.Proofs.CodeRoundTrip
import FreshLocal.Proofs.Misuse
import FreshLocal.Proofs.ProperBody

/-!
# Proper bodies are stored without misuse

A body that keeps to the rules may still be too long for the format, or have a
jump that is too far, or fill up the pool. But no label is missing when it is laid
out, whatever jumps become wide in which round, and no variable ends before it
starts, since the offsets of a layout are in the order of places.

* `Layout.exists_place`: items whose labels are placed once have a place each.
* `Layout.blameless_ofItems`: **a layout is found**, or the code is too long.
* `Draft.blameless_assemble`: **a proper body is stored**, or passes a limit.
* `ClassBuilder.blameless_complete`: and so is its method.
-/

namespace FreshLocal

open BodyEvent

namespace Layout

variable {layout : Layout} {l : Label} {items : List BodyItem}

/-! ## Finding a layout -/

/-- Items whose labels are placed once, and not before, have a place each. -/
theorem exists_placeOnto {o : Nat} {labels : Std.HashMap Label Nat}
    {items : List (BodyItem × Bool)} {done : List PlacedItem}
    (honce : (items.filterMap (·.1.event.label?)).Nodup)
    (hnew : ∀ l ∈ items.filterMap (·.1.event.label?), labels.contains l = false) :
    ∃ layout, placeOnto o labels items done = .ok layout := by
  -- no label that is left is among those placed so far
  fun_induction placeOnto o labels items done with
  | case1 o labels done => exact ⟨_, rfl⟩
  | case2 o labels l wide rest done hl =>
    have hfalse := hnew l List.mem_cons_self
    rw [hl] at hfalse
    cases hfalse
  | case3 o labels l wide rest done hl ih =>
    have hsome : (BodyItem.label l).event.label? = some l := rfl
    simp only [List.filterMap_cons, hsome] at honce hnew
    obtain ⟨hnotin, honce⟩ := List.nodup_cons.1 honce
    refine ih honce fun l' hl' => ?_
    have hne : l ≠ l' := fun heq => hnotin (heq ▸ hl')
    rw [Std.HashMap.contains_insert, beq_false_of_ne hne, Bool.false_or]
    exact hnew l' (List.mem_cons_of_mem _ hl')
  | case4 o labels item wide rest done hitem ih =>
    have hnone : item.event.label? = none := by
      cases item with
      | label l => exact absurd rfl (hitem l)
      | _ => rfl
    simp only [List.filterMap_cons, hnone] at honce hnew
    exact ih honce hnew

/-- The labels of items are placed once, and those that an item refers to are placed. -/
structure Closed (items : List BodyItem) : Prop where
  once : (items.filterMap (·.event.label?)).Nodup
  placed : ∀ item ∈ items, ∀ l ∈ item.event.references, .label l ∈ items

/-- **Items with their labels** have a place each, and so has each label that they refer to. -/
theorem exists_place {items : List (BodyItem × Bool)} (h : Closed (items.map Prod.fst)) :
    ∃ layout, place items = .ok layout ∧ layout.items.length = items.length ∧
      ∀ p ∈ layout.items, ∀ l ∈ p.item.event.references,
        layout.offset l = .ok (layout.offsetD l) := by
  have honce := h.once
  rw [List.filterMap_map] at honce
  have hexists : ∃ layout, placeOnto 0 ∅ items [] = .ok layout :=
    exists_placeOnto honce fun l _ => Std.HashMap.contains_empty
  obtain ⟨layout, hplace⟩ := hexists
  obtain ⟨ps, hitems, hps, -, hlabels⟩ := placeOnto_eq_ok hplace
  rw [List.reverse_nil, List.nil_append] at hitems
  subst hitems
  have hsame : layout.items.map PlacedItem.item = items.map Prod.fst := by
    rw [← hps, List.map_map]
    rfl
  refine ⟨layout, hplace, by rw [← hps, List.length_map], fun p hp l hl => ?_⟩
  refine offset_of_mem (fun l => by rw [hlabels]; simp) ?_
  rw [hsame]
  refine h.placed p.item ?_ l hl
  rw [← hsame]
  exact List.mem_map_of_mem hp

theorem blameless_checkLength (layout : Layout) : Blameless layout.checkLength := by
  unfold checkLength
  split
  · exact blameless_ok _
  · exact blameless_error id

theorem blameless_isTooFar {p : PlacedItem}
    (hfound : ∀ l ∈ p.item.event.references, layout.offset l = .ok (layout.offsetD l)) :
    Blameless (layout.isTooFar p) := by
  unfold isTooFar
  split
  · exact blameless_ok _
  · split
    · exact blameless_ok _
    · rename_i target htarget
      have hmem : target ∈ p.item.event.references := by
        unfold BodyItem.widenable? at htarget
        split at htarget
        · rename_i hitem; cases htarget; rw [hitem]; exact List.mem_cons_self
        · rename_i hitem; cases htarget; rw [hitem]; exact List.mem_cons_self
        · cases htarget
      unfold distance
      rw [hfound target hmem]
      exact blameless_ok _

/-- **In every round** of widening each label is found. -/
theorem blameless_settle {rounds : Nat} {items : List (BodyItem × Bool)}
    (h : Closed (items.map Prod.fst)) : Blameless (settle rounds items) := by
  induction rounds generalizing items with
  | zero =>
    obtain ⟨layout, hplace, -⟩ := exists_place h
    rw [settle, hplace]
    exact blameless_checkLength layout
  | succ rounds ih =>
    obtain ⟨layout, hplace, hlength, hfound⟩ := exists_place h
    rw [settle, hplace]
    dsimp only [bind, Except.bind]
    refine Blameless.bind (x := layout.items.mapM layout.isTooFar)
      (Blameless.mapM fun p hp => blameless_isTooFar (hfound p hp)) fun far hfar => ?_
    split
    · -- the items of the next round are those of this one
      have hsame : ((items.zip far).map fun x => (x.1.1, x.1.2 || x.2)).map Prod.fst =
          items.map Prod.fst := by
        have hfst : (items.zip far).map Prod.fst = items :=
          List.map_fst_zip (by rw [← (mapM_eq_ok.1 hfar).length_eq, hlength])
        rw [List.map_map]
        conv_rhs => rw [← hfst, List.map_map]
        rfl
      exact ih (hsame.symm ▸ h)
    · exact blameless_checkLength layout

/-- **A layout is found** for items with their labels, or the code is too long. -/
theorem blameless_ofItems (h : Closed items) : Blameless (ofItems items) := by
  refine blameless_settle ?_
  rwa [List.map_map, show (Prod.fst ∘ fun item : BodyItem => (item, false)) = id from rfl,
    List.map_id]

/-! ## Offsets of labels that were found -/

theorem blameless_offset16 (hl : layout.offset l = .ok (layout.offsetD l)) :
    Blameless (layout.offset16 l) := by
  unfold offset16
  rw [hl]
  dsimp only [bind, Except.bind]
  split
  · exact blameless_ok _
  · exact blameless_error id

theorem blameless_encodeBranch {p : PlacedItem} {b : Branch Label}
    (hb : ∀ l ∈ b.targets, layout.offset l = .ok (layout.offsetD l)) :
    Blameless (layout.encodeBranch p b) := by
  refine Blameless.map (Branch.onlyFaults_mapM fun l hl => ?_)
  unfold storedDistance distance
  rw [hb l hl]
  dsimp only [bind, Except.bind, pure, Except.pure]
  split
  · exact blameless_ok _
  · exact blameless_error id

theorem blameless_mapM_type {t : CodeType}
    (ht : ∀ l ∈ t.position?, layout.offset l = .ok (layout.offsetD l)) :
    (t.mapM ConstantPool.classIndex fun l =>
      MonadExcept.ofExcept (layout.offset16 l)).Blameless := by
  cases t with
  | object name => exact (ConstantPool.blameless_classIndex name).map
  | uninitialized l =>
    exact (PoolM.blameless_ofExcept (blameless_offset16 (ht l rfl))).map
  | _ => exact PoolM.blameless_pure _

theorem blameless_storeTypes {f : CodeFrame}
    (hf : ∀ l ∈ f.positions, layout.offset l = .ok (layout.offsetD l)) :
    (layout.storeTypes f).Blameless := by
  have htypes : ∀ ts : List CodeType, (∀ t ∈ ts, t ∈ f.types) →
      (ts.mapM (VerificationType.mapM ConstantPool.classIndex fun l =>
        MonadExcept.ofExcept (layout.offset16 l))).Blameless := fun ts hts =>
    PoolM.Blameless.mapM fun t ht => blameless_mapM_type fun l hl =>
      hf l (List.mem_filterMap.2 ⟨t, hts t ht, hl⟩)
  cases f with
  | same | chop count => exact PoolM.blameless_pure _
  | sameOne t =>
    exact (blameless_mapM_type fun l hl =>
      hf l (List.mem_filterMap.2 ⟨t, List.mem_cons_self, hl⟩)).map
  | append more => exact (htypes more fun t ht => ht).map
  | full locals stack =>
    exact ((htypes locals fun t ht => List.mem_append_left _ ht).map).seq
      (htypes stack fun t ht => List.mem_append_right _ ht)

/-- A legal frame is not refused for the number of locals it removes or adds. -/
theorem blameless_storeFrame {f : CodeFrame} (hlegal : f.Legal)
    (hf : ∀ l ∈ f.positions, layout.offset l = .ok (layout.offsetD l)) (distance : UInt16) :
    (layout.storeFrame distance f).Blameless := by
  cases f with
  | same | sameOne t | full locals stack => exact (blameless_storeTypes hf).map
  | chop count =>
    have hcount : 1 ≤ count ∧ count ≤ 3 := hlegal
    rw [storeFrame, if_pos hcount]
    exact PoolM.blameless_pure _
  | append more =>
    have hcount : 1 ≤ more.length ∧ more.length ≤ 3 := hlegal
    rw [storeFrame, if_pos hcount]
    exact (blameless_storeTypes hf).map

theorem blameless_assembleItem {p : PlacedItem} (hlegal : ∀ f, p.item = .frame f → f.Legal)
    (hp : ∀ l ∈ p.item.event.references, layout.offset l = .ok (layout.offsetD l))
    (done : Assembled) : (layout.assembleItem done p).Blameless := by
  unfold assembleItem
  split
  · exact PoolM.blameless_pure _
  · exact PoolM.blameless_pure _
  · rename_i b hitem
    rw [hitem] at hp
    exact .bind_ofExcept (blameless_encodeBranch hp) fun _ _ => PoolM.blameless_pure _
  · rename_i f hitem
    rw [hitem] at hp
    split
    · exact PoolM.blameless_throw id
    · split
      · exact (blameless_storeFrame (hlegal f hitem) hp _).bind fun _ => PoolM.blameless_pure _
      · exact PoolM.blameless_throw id

/-- A variable is not refused for its range if its offsets are in order. -/
theorem blameless_storeVariable {v : LocalVariable}
    (hstart : layout.offset v.start = .ok (layout.offsetD v.start))
    (hstop : layout.offset v.stop = .ok (layout.offsetD v.stop))
    (hle : layout.offsetD v.start ≤ layout.offsetD v.stop) :
    Blameless (layout.storeVariable v) := by
  refine (blameless_offset16 hstart).bind fun start hs => ?_
  refine (blameless_offset16 hstop).bind fun stop ht => ?_
  obtain ⟨-, -, hs⟩ := offset16_eq_ok hs
  obtain ⟨-, -, ht⟩ := offset16_eq_ok ht
  rw [if_pos (UInt16.le_iff_toNat_le.2 (by omega))]
  exact blameless_ok _

end Layout

/-! ## A proper body -/

namespace BodyEvent

variable {events : List BodyEvent}

/-- The items of a proper body have their labels. -/
theorem Proper.closed (h : Proper events) : Layout.Closed (events.filterMap item?) := by
  have hlabels : (events.filterMap item?).filterMap (·.event.label?) = events.filterMap label? := by
    rw [List.filterMap_filterMap]
    refine List.filterMap_congr fun e _ => ?_
    cases e <;> rfl
  refine ⟨by rw [hlabels]; exact h.once, fun item hitem l hl => ?_⟩
  obtain ⟨e, he, heq⟩ := List.mem_filterMap.1 hitem
  have hreferences : item.event = e := by cases e <;> cases heq <;> rfl
  rw [hreferences] at hl
  exact List.mem_filterMap.2 ⟨_, isSome_placeOf.1 (h.placed e he l hl), rfl⟩

/-- **The variables of a proper body** keep their ends behind their starts in every layout. -/
theorem Proper.ordered_layout (h : Proper events) {layout : Layout}
    (hsound : layout.Sound (events.filterMap item?)) {generic : Bool} {v : LocalVariable}
    (hv : .localVariable generic v ∈ events) :
    layout.offsetD v.start ≤ layout.offsetD v.stop := by
  obtain ⟨j, k, hj, hk, hle⟩ := h.ordered generic v hv
  exact hsound.offsetD_mono hj hk hle

/-- In a layout of a proper body each label that an event refers to is found. -/
theorem Proper.offset_eq_ok (h : Proper events) {layout : Layout}
    (hsound : layout.Sound (events.filterMap item?)) {e : BodyEvent} (he : e ∈ events) {l : Label}
    (hl : l ∈ e.references) : layout.offset l = .ok (layout.offsetD l) :=
  hsound.offset_of_mem (List.mem_filterMap.2 ⟨_, isSome_placeOf.1 (h.placed e he l hl), rfl⟩)

end BodyEvent

theorem blameless_namedAttribute (name : String) (body : Bytes) :
    (namedAttribute name body).Blameless :=
  (ConstantPool.blameless_textIndex name).bind fun _ => PoolM.blameless_pure _

theorem blameless_tableAttribute {α : Type} (name : String) (write : List α → Bytes)
    (entries : List α) : (tableAttribute name write entries).Blameless := by
  unfold tableAttribute
  split
  · exact PoolM.blameless_pure _
  · exact (blameless_namedAttribute name _).bind fun _ => PoolM.blameless_pure _

namespace Draft

variable {d : Draft} {events : List BodyEvent} {layout : Layout}

theorem blameless_lineTable (hd : d.Holds events) (hproper : Proper events)
    (hsound : layout.Sound (events.filterMap item?)) : (d.lineTable layout).Blameless := by
  refine .bind_ofExcept (Blameless.mapM fun x hx => ?_) fun _ _ => blameless_tableAttribute _ _ _
  rw [hd.lines] at hx
  exact (Layout.blameless_offset16 (hproper.offset_eq_ok hsound (mem_lines.1 hx)
    List.mem_cons_self)).map

theorem blameless_variableTable (hd : d.Holds events) (hproper : Proper events)
    (hsound : layout.Sound (events.filterMap item?)) (generic : Bool) :
    (d.variableTable layout generic).Blameless := by
  refine .bind_ofExcept (Blameless.mapM fun v hv => ?_) fun _ _ => blameless_tableAttribute _ _ _
  rw [hd.locals] at hv
  have hmem := mem_locals.1 hv
  exact Layout.blameless_storeVariable
    (hproper.offset_eq_ok hsound hmem List.mem_cons_self)
    (hproper.offset_eq_ok hsound hmem (List.mem_cons_of_mem _ List.mem_cons_self))
    (hproper.ordered_layout hsound hmem)

theorem blameless_annotationTable (hd : d.Holds events) (hproper : Proper events)
    (hsound : layout.Sound (events.filterMap item?)) (visible : Bool) :
    (d.annotationTable layout visible).Blameless := by
  refine .bind_ofExcept (Blameless.mapM fun a ha => ?_) fun _ _ => blameless_tableAttribute _ _ _
  have hmem := (List.mem_filter.1 ha).1
  rw [hd.annotations] at hmem
  exact AnnotatedType.onlyFaults_mapM fun l hl =>
    Layout.blameless_offset16 (hproper.offset_eq_ok hsound (mem_annotations.1 hmem) hl)

/-- **A proper body is stored**, or it passes a limit of the format. -/
theorem blameless_assemble (hd : d.Holds events) (hproper : Proper events)
    (hlegal : ∀ f, .frame f ∈ events → f.Legal) : d.assemble.Blameless := by
  refine .bind_ofExcept ?_ fun layout hlayout => ?_
  · rw [hd.items]
    exact Layout.blameless_ofItems hproper.closed
  rw [hd.items] at hlayout
  have hsound := Layout.ofItems_eq_ok hlayout
  -- the layout is found; what is left are limits and the pool, for items and tables alike
  refine (PoolM.Blameless.foldlM (fun p hp done => Layout.blameless_assembleItem
    (fun f hf => hlegal f ?_)
    (fun l hl => hproper.offset_eq_ok hsound (hsound.event_mem hp) hl) done) _).bind fun done => ?_
  · have hmem := hsound.event_mem hp
    rw [hf] at hmem
    exact hmem
  refine .bind_ofExcept (Blameless.mapM fun h hh => ?_) fun _ _ => ?_
  · rw [hd.handlers] at hh
    exact Handler.onlyFaults_mapM fun l hl =>
      Layout.blameless_offset16 (hproper.offset_eq_ok hsound (mem_handlers.1 hh) hl)
  refine (blameless_tableAttribute _ _ _).bind fun _ => ?_
  refine (blameless_lineTable hd hproper hsound).bind fun _ => ?_
  refine (blameless_variableTable hd hproper hsound false).bind fun _ => ?_
  refine (blameless_variableTable hd hproper hsound true).bind fun _ => ?_
  refine (blameless_annotationTable hd hproper hsound true).bind fun _ => ?_
  exact (blameless_annotationTable hd hproper hsound false).bind fun _ => PoolM.blameless_pure _

end Draft

/-- **A method with a proper body** is completed, or passes a limit of the format. -/
theorem ClassBuilder.blameless_complete {m : Method} {draft : Option Draft}
    {events : List BodyEvent} (hdraft : Drafted events draft) (hproper : Proper events)
    (hlegal : ∀ f, .frame f ∈ events → f.Legal) : (complete m draft).Blameless := by
  cases draft with
  | none => exact PoolM.blameless_pure m
  | some d =>
    refine (Draft.blameless_assemble hdraft.2 hproper hlegal).bind fun code => ?_
    exact (blameless_namedAttribute _ _).bind fun _ => PoolM.blameless_pure _

end FreshLocal
