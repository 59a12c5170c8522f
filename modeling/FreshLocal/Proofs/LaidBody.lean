import FreshLocal.Proofs.BodyEvents
import FreshLocal.Proofs.CodeAssembly

/-!
# The body at the offsets of a layout

With the offsets that a layout gives to labels, the events of a body say what a
stored body says. Its positions are starts of instructions or the end of the
code, and its content is that of the events.

* `Layout.Sound.place`: the place of a label, from its offset.
* `Layout.body`: the body at the offsets of a layout.
* `Layout.sound_body`, `Layout.events_body`: it is one that the reader lets pass.
* `Layout.placed_body`: **its content is that of the events**.
-/

namespace FreshLocal

namespace BodyEvent

/-- What an event puts into the code. -/
def item? : BodyEvent → Option BodyItem
  | label l => some (.label l)
  | operation op => some (.operation op)
  | frame f => some (.frame f)
  | _ => none

/-- Each item came with one of the events. -/
theorem event_mem {events : List BodyEvent} {item : BodyItem} (h : item ∈ events.filterMap item?) :
    item.event ∈ events := by
  obtain ⟨e, he, hitem⟩ := List.mem_filterMap.1 h
  cases e <;> cases hitem <;> exact he

/-! Only items matter for places. -/

theorem placeOf_items (l : Label) (events : List BodyEvent) :
    placeOf l ((events.filterMap item?).map BodyItem.event) = placeOf l events := by
  induction events with
  | nil => rfl
  | cons e rest ih =>
    cases e <;> simp [List.filterMap_cons, item?, BodyItem.event, placeOf, ih]

theorem operations_items (events : List BodyEvent) :
    operations ((events.filterMap item?).map BodyItem.event) = operations events := by
  induction events with
  | nil => rfl
  | cons e rest ih =>
    unfold operations at ih ⊢
    cases e <;> simp [item?, BodyItem.event, List.filterMap_cons, ih]

theorem frames_items (n : Nat) (events : List BodyEvent) :
    (numbered n ((events.filterMap item?).map BodyItem.event)).filterMap frame? =
      (numbered n events).filterMap frame? := by
  induction events generalizing n with
  | nil => rfl
  | cons e rest ih =>
    cases e <;> simp [item?, BodyItem.event, List.filterMap_cons, numbered, frame?, size, ih]

/-- **Events are numbered in ascending order.** -/
theorem pairwise_numbered (n : Nat) (events : List BodyEvent) :
    (numbered n events).Pairwise (fun x y => x.1 ≤ y.1) ∧ ∀ x ∈ numbered n events, n ≤ x.1 := by
  induction events generalizing n with
  | nil => exact ⟨.nil, fun x hx => by cases hx⟩
  | cons e rest ih =>
    obtain ⟨hpairwise, hle⟩ := ih (n + e.size)
    refine ⟨List.pairwise_cons.2 ⟨fun x hx => ?_, hpairwise⟩, fun x hx => ?_⟩
    · exact (Nat.le_add_right _ _).trans (hle x hx)
    · obtain rfl | hx := List.mem_cons.1 hx
      · exact Nat.le_refl _
      · exact (Nat.le_add_right _ _).trans (hle x hx)

end BodyEvent

namespace Laid

variable {o stop : Nat} {ps : List PlacedItem} {l : Label}

/-- A label that is not among some items has no place in them. -/
theorem placeOf_eq_none (h : ps.findSome? (PlacedItem.labelled? l) = none) :
    BodyEvent.placeOf l (ps.map (·.item.event)) = none := by
  induction ps with
  | nil => rfl
  | cons p ps ih =>
    rw [List.findSome?_cons] at h
    rw [List.map_cons]
    have hrest : p.labelled? l = none ∧ ps.findSome? (PlacedItem.labelled? l) = none := by
      cases hp : p.labelled? l with
      | none => rw [hp] at h; exact ⟨rfl, h⟩
      | some q => rw [hp] at h; cases h
    have hnone := ih hrest.2
    cases hp : p.item with
    | label l' =>
      have hl := hrest.1
      simp only [PlacedItem.labelled?, hp, ite_eq_right_iff, reduceCtorEq, imp_false] at hl
      rw [BodyItem.event, BodyEvent.placeOf, if_neg hl, hnone]
    | frame f => exact hnone
    | operation op => rw [BodyItem.event, BodyEvent.placeOf, hnone]; rfl

/-- **Frames stand in ascending order.** -/
theorem pairwise_frames (h : Laid o ps stop) :
    ((ps.filterMap PlacedItem.frame?).map Prod.fst).Pairwise (· ≤ ·) := by
  have hoffsets : ps.Pairwise fun p p' => p.offset ≤ p'.offset := by
    induction ps generalizing o with
    | nil => exact .nil
    | cons p ps ih =>
      obtain ⟨rfl, hrest⟩ := h
      refine List.pairwise_cons.2 ⟨fun p' hp' => ?_, ih hrest⟩
      exact (Nat.le_add_right _ _).trans (hrest.le.2 p' hp').1
  rw [List.pairwise_map]
  refine hoffsets.filterMap _ fun p p' hle x hx x' hx' => ?_
  rw [← (PlacedItem.frame?_eq_some.1 hx).1, ← (PlacedItem.frame?_eq_some.1 hx').1]
  exact hle

end Laid

namespace Layout

variable {layout : Layout} {events : List BodyEvent} {l : Label} {k : Nat}

theorem Sound.events_eq (h : layout.Sound (events.filterMap BodyEvent.item?)) :
    layout.items.map (·.item.event) = (events.filterMap BodyEvent.item?).map BodyItem.event := by
  rw [← h.items, List.map_map]
  rfl

theorem Sound.event_mem (h : layout.Sound (events.filterMap BodyEvent.item?)) {p : PlacedItem}
    (hp : p ∈ layout.items) : p.item.event ∈ events := by
  refine BodyEvent.event_mem ?_
  rw [← h.items]
  exact List.mem_map_of_mem hp

/-- A label that has a place has an offset. -/
theorem Sound.labels_eq_some (h : layout.Sound (events.filterMap BodyEvent.item?))
    (hl : (BodyEvent.placeOf l events).isSome) : layout.labels[l]? = some (layout.offsetD l) := by
  cases hfind : layout.labels[l]? with
  | none =>
    rw [h.labels] at hfind
    rw [← BodyEvent.placeOf_items, ← h.events_eq, Laid.placeOf_eq_none hfind] at hl
    cases hl
  | some o => rw [offsetD, hfind, Option.getD_some]

/-- **The place of a label** is the number of operations before its offset. -/
theorem Sound.place (h : layout.Sound (events.filterMap BodyEvent.item?))
    (hl : BodyEvent.placeOf l events = some k) :
    (layout.offsetD l ∈ starts layout.items ∨ layout.offsetD l = layout.length) ∧
      (starts layout.items).idxOf (layout.offsetD l) = k := by
  have hfind := h.labels_eq_some (Option.isSome_of_eq_some hl)
  rw [h.labels] at hfind
  rw [← BodyEvent.placeOf_items, ← h.events_eq] at hl
  obtain ⟨-, hmem, hplace⟩ := h.laid.placeOf hfind
  rw [hplace, Option.some.injEq] at hl
  exact ⟨hmem, hl⟩

/-- **Offsets are in the order of places.** -/
theorem Sound.offsetD_mono (h : layout.Sound (events.filterMap BodyEvent.item?)) {l' : Label}
    {k' : Nat} (hl : BodyEvent.placeOf l events = some k)
    (hl' : BodyEvent.placeOf l' events = some k') (hle : k ≤ k') :
    layout.offsetD l ≤ layout.offsetD l' := by
  obtain ⟨hmem, hidx⟩ := h.place hl
  obtain ⟨hmem', hidx'⟩ := h.place hl'
  by_contra hgt
  have hstart : layout.offsetD l' ∈ starts layout.items := by
    refine hmem'.resolve_right fun hlast => ?_
    obtain hmem | heq := hmem
    · have := (h.laid.pairwise_starts.2 _ hmem).2
      omega
    · omega
  have hlt := idxOf_lt_idxOf h.laid.pairwise_starts.1 (Nat.lt_of_not_le hgt) hstart
  omega

theorem Sound.offsetD_le (h : layout.Sound (events.filterMap BodyEvent.item?))
    (hl : (BodyEvent.placeOf l events).isSome) : layout.offsetD l ≤ layout.length := by
  obtain ⟨k, hk⟩ := Option.isSome_iff_exists.1 hl
  obtain hmem | heq := (h.place hk).1
  · exact Nat.le_of_lt (h.laid.pairwise_starts.2 _ hmem).2
  · exact Nat.le_of_eq heq

/-- The offset of a label fits into 16 bits. -/
theorem Sound.toNat_offsetD16 (h : layout.Sound (events.filterMap BodyEvent.item?))
    (hl : (BodyEvent.placeOf l events).isSome) :
    (layout.offsetD16 l).toNat = layout.offsetD l := by
  have hle := h.offsetD_le hl
  have hlength := h.length
  rw [offsetD16, UInt16.toNat_ofNat']
  omega

/-- There is an operation for each start. -/
theorem Sound.length_starts (h : layout.Sound (events.filterMap BodyEvent.item?)) :
    (starts layout.items).length = (BodyEvent.operations events).length := by
  have key : ∀ ps : List PlacedItem, (starts ps).length =
      (BodyEvent.operations (ps.map (·.item.event))).length := by
    intro ps
    induction ps with
    | nil => rfl
    | cons p ps ih =>
      rw [List.map_cons, BodyEvent.length_operations_cons]
      cases hp : p.item with
      | operation op =>
        rw [Laid.starts_cons_operation hp, List.length_cons, ih, Nat.add_comm]
        rfl
      | label l | frame f =>
        rw [Laid.starts_cons_other (by simp [hp]), ih]
        exact (Nat.zero_add _).symm
  rw [key, h.events_eq, BodyEvent.operations_items]

/-- A label whose place is that of an operation has the offset of one. -/
theorem Sound.mem_starts (h : layout.Sound (events.filterMap BodyEvent.item?))
    (hl : BodyEvent.placeOf l events = some k) (hk : k < (BodyEvent.operations events).length) :
    layout.offsetD l ∈ starts layout.items := by
  rw [← h.length_starts, ← (h.place hl).2] at hk
  exact List.idxOf_lt_length_iff.1 hk

/-! ## The body -/

/-- A variable at the offsets of the layout. -/
def variableEntry (layout : Layout) (v : LocalVariable) : VariableEntry :=
  let start := layout.offsetD16 v.start
  ⟨start, layout.offsetD16 v.stop - start, v.name, v.type, v.slot⟩

/-- **The body that some events have** at the offsets of the layout. -/
def body (layout : Layout) (events : List BodyEvent) (maxStack maxLocals : UInt16) : Body :=
  let annotations := events.filterMap BodyEvent.annotation?
  { maxStack, maxLocals
    length := layout.length
    operations := layout.items.filterMap layout.operation?
    handlers := (events.filterMap BodyEvent.handler?).map (·.map layout.offsetD16)
    frames := (layout.items.filterMap PlacedItem.frame?).map fun x =>
      (x.1, x.2.map id layout.offsetD16)
    lines := (events.filterMap BodyEvent.line?).map fun x => ⟨layout.offsetD16 x.2, x.1⟩
    locals := (events.filterMap (BodyEvent.local? false)).map layout.variableEntry
    genericLocals := (events.filterMap (BodyEvent.local? true)).map layout.variableEntry
    annotations := (annotations.filter (·.visible == true)).map (·.map layout.offsetD16) ++
      (annotations.filter (·.visible == false)).map (·.map layout.offsetD16)
    attributes := events.filterMap BodyEvent.attribute? }

section Body

variable {pool : ConstantPool} {maxStack maxLocals : UInt16}

theorem starts_body (events : List BodyEvent) (maxStack maxLocals : UInt16) :
    (layout.body events maxStack maxLocals).starts = starts layout.items := by
  simp only [Body.starts, body, starts, List.map_filterMap]
  refine List.filterMap_congr fun p _ => ?_
  unfold operation? PlacedItem.start?
  cases p.item <;> rfl

theorem operations_body (h : layout.Sound (events.filterMap BodyEvent.item?)) :
    (layout.body events maxStack maxLocals).operations.map Prod.snd =
      (BodyEvent.operations events).map (·.map layout.offsetD) := by
  rw [← BodyEvent.operations_items, ← h.events_eq]
  simp only [body, BodyEvent.operations, List.map_filterMap, List.filterMap_map]
  refine List.filterMap_congr fun p _ => ?_
  unfold operation?
  rw [Function.comp_apply]
  cases p.item <;> rfl

/-- **The frames of the events**, with the offsets at which they stand. -/
theorem frames_events (h : layout.Sound (events.filterMap BodyEvent.item?)) :
    (BodyEvent.numbered 0 events).filterMap BodyEvent.frame? =
      (layout.items.filterMap PlacedItem.frame?).map fun x =>
        ((starts layout.items).idxOf x.1, x.2) := by
  rw [← BodyEvent.frames_items, ← h.events_eq, h.laid.frames 0]
  simp only [Nat.zero_add]

/-- A frame stands before an operation, and it is one of the events. -/
theorem frame_mem (h : layout.Sound (events.filterMap BodyEvent.item?))
    (hall : BodyEvent.StorableAll pool events) {q : Nat} {f : CodeFrame}
    (hf : (q, f) ∈ layout.items.filterMap PlacedItem.frame?) :
    q ∈ starts layout.items ∧ .frame f ∈ events := by
  have hmem : ((starts layout.items).idxOf q, f) ∈
      (BodyEvent.numbered 0 events).filterMap BodyEvent.frame? := by
    rw [frames_events h]
    exact List.mem_map.2 ⟨_, hf, rfl⟩
  obtain ⟨⟨k, e⟩, hx, he⟩ := List.mem_filterMap.1 hmem
  cases e <;> cases he
  refine ⟨?_, BodyEvent.mem_of_mem_numbered hx⟩
  have hk := (hall.each _ hx).1
  rw [← h.length_starts] at hk
  exact List.idxOf_lt_length_iff.1 hk

/-- Each position of an event is a start or the end. -/
theorem Sound.reaches (h : layout.Sound (events.filterMap BodyEvent.item?))
    (hall : BodyEvent.StorableAll pool events) {e : BodyEvent} (he : e ∈ events)
    (hl : l ∈ e.references) :
    layout.offsetD l ∈ starts layout.items ∨ layout.offsetD l = layout.length := by
  obtain ⟨k, hk⟩ := Option.isSome_iff_exists.1 (hall.isSome he hl)
  exact (h.place hk).1

/-- Does no variable of the events end before it starts? -/
def Ordered (layout : Layout) (events : List BodyEvent) : Prop :=
  ∀ g v, .localVariable g v ∈ events → layout.offsetD16 v.start ≤ layout.offsetD16 v.stop

theorem toNat_stop_variableEntry {v : LocalVariable}
    (hle : layout.offsetD16 v.start ≤ layout.offsetD16 v.stop) :
    (layout.variableEntry v).start.toNat + (layout.variableEntry v).length.toNat =
      (layout.offsetD16 v.stop).toNat := by
  have hlen := UInt16.toNat_sub_of_le _ _ hle
  have hnat := UInt16.le_iff_toNat_le.1 hle
  simp only [variableEntry, hlen]
  omega

/-- **What the body refers to**: offsets of labels that the events refer to, and offsets of
frames. -/
theorem references_body (h : layout.Sound (events.filterMap BodyEvent.item?))
    (hall : BodyEvent.StorableAll pool events) (hranges : layout.Ordered events) {o : Nat}
    (ho : o ∈ (layout.body events maxStack maxLocals).references) :
    (∃ e ∈ events, ∃ l ∈ e.references, o = layout.offsetD l) ∨
      ∃ f, (o, f) ∈ layout.items.filterMap PlacedItem.frame? := by
  -- an offset of 16 bits is the whole offset, since all of them are short
  have reach16 : ∀ e ∈ events, ∀ l ∈ e.references, ∃ e ∈ events, ∃ l' ∈ e.references,
      (layout.offsetD16 l).toNat = layout.offsetD l' := fun e he l hl =>
    ⟨e, he, l, hl, h.toNat_offsetD16 (hall.isSome he hl)⟩
  have hlocal : ∀ g, ∀ v ∈ (events.filterMap (BodyEvent.local? g)).map layout.variableEntry,
      o ∈ [v.start.toNat, v.start.toNat + v.length.toNat] →
        ∃ e ∈ events, ∃ l ∈ e.references, o = layout.offsetD l := by
    intro g entry hentry ho
    obtain ⟨v, hv, rfl⟩ := List.mem_map.1 hentry
    have he := BodyEvent.mem_locals.1 hv
    rw [toNat_stop_variableEntry (hranges g v he)] at ho
    simp only [List.mem_cons, List.not_mem_nil, or_false] at ho
    obtain rfl | rfl := ho
    · exact reach16 _ he _ (by simp [BodyEvent.references])
    · exact reach16 _ he _ (by simp [BodyEvent.references])
  have hpositions : ∀ visible, ∀ a ∈ ((events.filterMap BodyEvent.annotation?).filter
      (·.visible == visible)).map (·.map layout.offsetD16), ∀ o' ∈ a.target.positions,
      ∃ e ∈ events, ∃ l ∈ e.references, o'.toNat = layout.offsetD l := by
    intro visible a ha o' ho'
    obtain ⟨a', ha', rfl⟩ := List.mem_map.1 ha
    rw [AnnotatedType.positions_map] at ho'
    obtain ⟨l, hl, rfl⟩ := List.mem_map.1 ho'
    exact reach16 _ (BodyEvent.mem_annotations.1 (List.mem_filter.1 ha').1) l hl
  rw [Body.references] at ho
  simp only [List.mem_append, List.mem_flatMap, List.mem_map] at ho
  rcases ho with ((((⟨x, hx, ho⟩ | ⟨o, ⟨x, hx, ho⟩, rfl⟩) | ⟨x, hx, ho⟩) | ⟨x, hx, rfl⟩) |
    ⟨v, hv | hv, ho⟩) | ⟨o, ⟨a, ha, ho⟩, rfl⟩
  · have hmem : x.2 ∈ (layout.body events maxStack maxLocals).operations.map Prod.snd :=
      List.mem_map_of_mem hx
    rw [operations_body h] at hmem
    obtain ⟨op, hop, hx⟩ := List.mem_map.1 hmem
    rw [← hx, Operation.targets_map] at ho
    obtain ⟨l, hl, rfl⟩ := List.mem_map.1 ho
    exact .inl ⟨_, BodyEvent.mem_operations.1 hop, l, hl, rfl⟩
  · obtain ⟨handler, hhandler, rfl⟩ := List.mem_map.1 hx
    rw [Handler.positions_map] at ho
    obtain ⟨l, hl, rfl⟩ := List.mem_map.1 ho
    exact .inl (reach16 _ (BodyEvent.mem_handlers.1 hhandler) l hl)
  · obtain ⟨⟨q, f⟩, hf, rfl⟩ := List.mem_map.1 hx
    rw [Frame.positions_map] at ho
    obtain rfl | hposition := List.mem_cons.1 ho
    · exact .inr ⟨f, hf⟩
    · obtain ⟨o', ho', rfl⟩ := List.mem_map.1 hposition
      obtain ⟨l, hl, rfl⟩ := List.mem_map.1 ho'
      exact .inl (reach16 _ (frame_mem h hall hf).2 l hl)
  · obtain ⟨line, hline, rfl⟩ := List.mem_map.1 hx
    exact .inl (reach16 _ (BodyEvent.mem_lines.1 hline) _ (by simp [BodyEvent.references]))
  · exact .inl (hlocal false v hv ho)
  · exact .inl (hlocal true v hv ho)
  · obtain ha | ha := List.mem_append.1 ha
    · exact .inl (hpositions true a ha o ho)
    · exact .inl (hpositions false a ha o ho)

/-- **Each position in the body** is the start of an instruction or the end. -/
theorem sound_body (maxStack maxLocals : UInt16)
    (h : layout.Sound (events.filterMap BodyEvent.item?))
    (hall : BodyEvent.StorableAll pool events) (hranges : layout.Ordered events) :
    (layout.body events maxStack maxLocals).Sound := by
  have hpairwise := h.laid.pairwise_starts
  refine ⟨by rw [starts_body]; exact hpairwise.1,
    by rw [starts_body]; exact fun o ho => (hpairwise.2 o ho).2, fun o ho => ?_⟩
  rw [starts_body]
  change _ ∨ o = layout.length
  obtain ⟨e, he, l, hl, rfl⟩ | ⟨f, hf⟩ := references_body h hall hranges ho
  · exact h.reaches hall he hl
  · exact .inl (frame_mem h hall hf).1

/-- **No frame stands before no instruction.** -/
theorem events_body (maxStack maxLocals : UInt16)
    (h : layout.Sound (events.filterMap BodyEvent.item?))
    (hall : BodyEvent.StorableAll pool events) :
    (layout.body events maxStack maxLocals).events.2 = none := by
  refine Body.events_none (Body.attachFrames_left ?_ ?_ fun x hx => ?_)
  · change (layout.body events maxStack maxLocals).starts.Pairwise _
    rw [starts_body]
    exact h.laid.pairwise_starts.1
  · simp only [body, List.map_map]
    exact h.laid.pairwise_frames
  · obtain ⟨⟨q, f⟩, hf, rfl⟩ := List.mem_map.1 hx
    change q ∈ (layout.body events maxStack maxLocals).starts
    rw [starts_body]
    exact (frame_mem h hall hf).1

theorem place_body (h : layout.Sound (events.filterMap BodyEvent.item?))
    (hl : BodyEvent.placeOf l events = some k) :
    (layout.body events maxStack maxLocals).place (layout.offsetD l) = k ∧
      (layout.body events maxStack maxLocals).place (layout.offsetD16 l).toNat = k := by
  rw [h.toNat_offsetD16 (by rw [hl]; rfl), and_self, Body.place, starts_body]
  exact (h.place hl).2

/-- **Lines stand in ascending order**, each at an instruction. -/
theorem pairwise_lines (maxStack maxLocals : UInt16)
    (h : layout.Sound (events.filterMap BodyEvent.item?))
    (hall : BodyEvent.StorableAll pool events) :
    ((layout.body events maxStack maxLocals).lines.map (·.start.toNat)).Pairwise (· ≤ ·) ∧
      ∀ x ∈ (layout.body events maxStack maxLocals).lines,
        x.start.toNat ∈ starts layout.items := by
  have hline : ∀ x ∈ BodyEvent.numbered 0 events, ∀ y, BodyEvent.line? x.2 = some y →
      (layout.offsetD16 y.2).toNat ∈ starts layout.items ∧
        (starts layout.items).idxOf (layout.offsetD16 y.2).toNat = x.1 := by
    rintro ⟨k, e⟩ hx y hy
    have hstorable := hall.each _ hx
    cases e <;> cases hy
    obtain ⟨hk, hplace⟩ := hstorable
    rw [h.toNat_offsetD16 (Option.isSome_of_eq_some hplace)]
    exact ⟨h.mem_starts hplace hk, (h.place hplace).2⟩
  have hlines : events.filterMap BodyEvent.line? =
      (BodyEvent.numbered 0 events).filterMap fun x => BodyEvent.line? x.2 := by
    conv_lhs => rw [← BodyEvent.map_snd_numbered 0 events, List.filterMap_map]
    rfl
  refine ⟨?_, fun x hx => ?_⟩
  · simp only [body, List.map_map]
    rw [hlines, List.pairwise_map, List.pairwise_filterMap]
    refine (BodyEvent.pairwise_numbered 0 events).1.imp_of_mem
      fun {x x'} hx hx' hle y hy y' hy' => ?_
    obtain ⟨-, hidx⟩ := hline x hx y hy
    obtain ⟨hmem', hidx'⟩ := hline x' hx' y' hy'
    -- were the second line at a smaller offset, fewer operations would stand before it
    change (layout.offsetD16 y.2).toNat ≤ (layout.offsetD16 y'.2).toNat
    by_contra hgt
    have hlt := idxOf_lt_idxOf h.laid.pairwise_starts.1 (Nat.lt_of_not_le hgt) hmem'
    omega
  · obtain ⟨y, hy, rfl⟩ := List.mem_map.1 hx
    rw [hlines] at hy
    obtain ⟨x, hx, hy⟩ := List.mem_filterMap.1 hy
    exact (hline x hx y hy).1

end Body

/-! ## The content -/

section Content

variable {pool : ConstantPool} {maxStack maxLocals : UInt16} {b : Body} {place : Label → Nat}

/-- Are these the places of all labels that the events refer to? -/
def Places (layout : Layout) (events : List BodyEvent) (b : Body) (place : Label → Nat) : Prop :=
  ∀ e ∈ events, ∀ l ∈ e.references,
    b.place (layout.offsetD l) = place l ∧ b.place (layout.offsetD16 l).toNat = place l

/-- **The places of labels** are those of their offsets. -/
theorem Sound.places (h : layout.Sound (events.filterMap BodyEvent.item?))
    (hall : BodyEvent.StorableAll pool events) (maxStack maxLocals : UInt16) :
    layout.Places events (layout.body events maxStack maxLocals)
      fun l => (BodyEvent.placeOf l events).getD 0 := by
  intro e he l hl
  obtain ⟨k, hk⟩ := Option.isSome_iff_exists.1 (hall.isSome he hl)
  have hgetD : BodyEvent.placeOf l events = some ((BodyEvent.placeOf l events).getD 0) := by
    rw [hk, Option.getD_some]
  exact place_body h hgetD

theorem operations_placed (hb : layout.body events maxStack maxLocals = b)
    (h : layout.Sound (events.filterMap BodyEvent.item?)) (hplace : layout.Places events b place) :
    b.operations.map (fun x => x.2.map b.place) =
      (BodyEvent.operations events).map (·.map place) := by
  have hsnd : (fun x : Nat × Operation Nat => x.2.map b.place) = (·.map b.place) ∘ Prod.snd := rfl
  rw [hsnd, ← List.map_map, ← hb, operations_body h, hb, List.map_map]
  refine List.map_congr_left fun op hop => ?_
  rw [Function.comp_apply, Operation.map_map]
  exact Operation.map_congr fun l hl => (hplace _ (BodyEvent.mem_operations.1 hop) l hl).1

theorem frames_placed (hb : layout.body events maxStack maxLocals = b)
    (h : layout.Sound (events.filterMap BodyEvent.item?))
    (hall : BodyEvent.StorableAll pool events) (hplace : layout.Places events b place) :
    b.frames.map (fun x => (b.place x.1, x.2.map id fun o => b.place o.toNat)) =
      ((BodyEvent.numbered 0 events).filterMap BodyEvent.frame?).map
        fun x => (x.1, x.2.map id place) := by
  have hstarts : b.starts = starts layout.items := by rw [← hb, starts_body]
  have hframes : b.frames = (layout.items.filterMap PlacedItem.frame?).map fun x =>
      (x.1, x.2.map id layout.offsetD16) := by rw [← hb]; rfl
  rw [frames_events h, hframes, List.map_map, List.map_map]
  refine List.map_congr_left fun x hf => ?_
  obtain ⟨q, f⟩ := x
  have he := (frame_mem h hall hf).2
  refine Prod.ext (congrArg (List.idxOf q) hstarts) ?_
  exact (Frame.map_map _ _ _ _ f).trans
    (Frame.map_congr_positions fun l hl => (hplace _ he l hl).2)

theorem handlers_placed (hb : layout.body events maxStack maxLocals = b)
    (hplace : layout.Places events b place) :
    b.handlers.map (·.map fun o => b.place o.toNat) =
      (events.filterMap BodyEvent.handler?).map (·.map place) := by
  have hhandlers : b.handlers =
      (events.filterMap BodyEvent.handler?).map (·.map layout.offsetD16) := by rw [← hb]; rfl
  rw [hhandlers, List.map_map]
  refine List.map_congr_left fun x hx => ?_
  exact Handler.map_congr fun l hl => (hplace _ (BodyEvent.mem_handlers.1 hx) l hl).2

theorem lines_placed (hb : layout.body events maxStack maxLocals = b)
    (h : layout.Sound (events.filterMap BodyEvent.item?))
    (hall : BodyEvent.StorableAll pool events) (hplace : layout.Places events b place) :
    (b.starts.flatMap fun o => (b.lines.filter (·.start.toNat = o)).map
        fun l => (b.place o, l.line)) =
      (events.filterMap BodyEvent.line?).map fun x => (place x.2, x.1) := by
  have hlines : b.lines = (events.filterMap BodyEvent.line?).map
      fun x => ⟨layout.offsetD16 x.2, x.1⟩ := by rw [← hb]; rfl
  obtain ⟨hpairwise, hmem⟩ := pairwise_lines maxStack maxLocals h hall
  rw [hb] at hpairwise hmem
  have hstarts : b.starts = starts layout.items := by rw [← hb, starts_body]
  have hsame : ∀ o ∈ b.starts,
      ((b.lines.filter (·.start.toNat = o)).map fun l => (b.place o, l.line)) =
        (b.lines.filter (·.start.toNat = o)).map fun l => (b.place l.start.toNat, l.line) := by
    intro o _
    refine List.map_congr_left fun l hl => ?_
    rw [of_decide_eq_true (List.mem_filter.1 hl).2]
  rw [List.flatMap_congr hsame, ← List.map_flatMap, hstarts,
    flatMap_filter_eq h.laid.pairwise_starts.1 hpairwise hmem, hlines, List.map_map]
  refine List.map_congr_left fun x hx => ?_
  exact Prod.ext (hplace _ (BodyEvent.mem_lines.1 hx) _ (by simp [BodyEvent.references])).2 rfl

theorem locals_placed (hranges : layout.Ordered events) (hplace : layout.Places events b place)
    (generic : Bool) :
    ((events.filterMap (BodyEvent.local? generic)).map layout.variableEntry).map
        (·.placed b.place) =
      (events.filterMap (BodyEvent.local? generic)).map (·.placed place) := by
  rw [List.map_map]
  refine List.map_congr_left fun v hv => ?_
  have he := BodyEvent.mem_locals.1 hv
  have hstart := (hplace _ he v.start (by simp [BodyEvent.references])).2
  have hstop := (hplace _ he v.stop (by simp [BodyEvent.references])).2
  rw [Function.comp_apply, VariableEntry.placed, toNat_stop_variableEntry (hranges _ v he), hstop,
    LocalVariable.placed, ← hstart]
  rfl

/-- The annotations of the body that are visible, or the others. -/
theorem annotations_body (events : List BodyEvent) (maxStack maxLocals : UInt16)
    (visible : Bool) :
    (layout.body events maxStack maxLocals).annotations.filter (·.visible == visible) =
      ((events.filterMap BodyEvent.annotation?).filter (·.visible == visible)).map
        (·.map layout.offsetD16) := by
  have hmap : ∀ visible', (((events.filterMap BodyEvent.annotation?).filter
      (·.visible == visible')).map (·.map layout.offsetD16)).filter (·.visible == visible) =
      (((events.filterMap BodyEvent.annotation?).filter (·.visible == visible')).filter
        (·.visible == visible)).map (·.map layout.offsetD16) := fun _ => List.filter_map
  change (_ ++ _ : List (AnnotatedType UInt16)).filter _ = _
  rw [List.filter_append, hmap, hmap, List.filter_filter, List.filter_filter, ← List.map_append]
  congr 1
  cases visible <;> simp

/-- The annotations of the body, those that are visible first. -/
theorem annotations_placed (hb : layout.body events maxStack maxLocals = b)
    (hplace : layout.Places events b place) (visible : Bool) :
    (b.annotations.map (·.map fun o => b.place o.toNat)).filter (·.visible == visible) =
      ((events.filterMap BodyEvent.annotation?).map (·.map place)).filter
        (·.visible == visible) := by
  have hcomp : ∀ {π π' : Type} (f : π → π'), (fun x : AnnotatedType π' => x.visible == visible) ∘
      (fun a : AnnotatedType π => a.map f) = fun a => a.visible == visible := fun _ => rfl
  have hannotations := layout.annotations_body events maxStack maxLocals visible
  rw [hb] at hannotations
  rw [List.filter_map, hcomp, hannotations, List.filter_map, hcomp, List.map_map]
  refine List.map_congr_left fun a ha => ?_
  have he := BodyEvent.mem_annotations.1 (List.mem_filter.1 ha).1
  rw [Function.comp_apply, AnnotatedType.map_map]
  exact AnnotatedType.map_congr fun l hl => (hplace _ he l hl).2

/-- **The content of the body** is that of the events. -/
theorem placed_body (h : layout.Sound (events.filterMap BodyEvent.item?))
    (hall : BodyEvent.StorableAll pool events) (hranges : layout.Ordered events)
    (hlimits : (events.filterMap BodyEvent.limits?).getLast? = some (maxStack, maxLocals)) :
    PlacedBody.ofEvents? events = some (layout.body events maxStack maxLocals).placed := by
  obtain ⟨b, hb⟩ : ∃ b, layout.body events maxStack maxLocals = b := ⟨_, rfl⟩
  have hplace := hb ▸ h.places hall maxStack maxLocals
  have hlocals := locals_placed hranges hplace
  rw [hall.ofEvents?, hb]
  refine congrArg some ?_
  unfold PlacedBody.ofEvents Body.placed
  dsimp only
  rw [operations_placed hb h hplace, frames_placed hb h hall hplace, handlers_placed hb hplace,
    lines_placed hb h hall hplace, annotations_placed hb hplace, annotations_placed hb hplace,
    ← hlocals, ← hlocals, hlimits, ← hb]
  rfl

end Content

end Layout

end FreshLocal
