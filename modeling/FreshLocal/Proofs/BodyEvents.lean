import FreshLocal.Proofs.LabelledOffsets
import FreshLocal.Proofs.PlacedBody

/-!
# What the events of a body say

A body with its positions given by offsets has a content as well: each offset
stands for the number of instructions before it. The events of the body have
just this content.

* `Body.placed`: the content of a body.
* `Body.Sound`: each position in the body is the start of an instruction or the end.
* `Body.ofEvents?_events`: **the content of the events** is that of the body.
-/

namespace FreshLocal

/-- The variable with its range by places. -/
def VariableEntry.placed (v : VariableEntry) (place : Nat → Nat) : PlacedVariable :=
  ⟨v.name, v.type, place v.start.toNat, place (v.start.toNat + v.length.toNat), v.slot⟩

namespace Body

/-- The offsets at which instructions start. -/
def starts (b : Body) : List Nat := b.operations.map Prod.fst

/-- How many instructions stand before the one at an offset, or before the end. -/
def place (b : Body) (o : Nat) : Nat := b.starts.idxOf o

/-- The content of a body. -/
def placed (b : Body) : PlacedBody :=
  let annotations := b.annotations.map (·.map fun o => b.place o.toNat)
  { limits := some (b.maxStack, b.maxLocals)
    operations := b.operations.map fun x => x.2.map b.place
    frames := b.frames.map fun x => (b.place x.1, x.2.map id fun o => b.place o.toNat)
    handlers := b.handlers.map (·.map fun o => b.place o.toNat)
    lines := b.starts.flatMap fun o =>
      (b.lines.filter (·.start.toNat = o)).map fun l => (b.place o, l.line)
    locals := b.locals.map (·.placed b.place)
    genericLocals := b.genericLocals.map (·.placed b.place)
    visible := annotations.filter (·.visible == true)
    invisible := annotations.filter (·.visible == false)
    attributes := b.attributes }

/-- Instructions are in order, and each position is the start of one of them or the end. -/
structure Sound (b : Body) : Prop where
  ascending : b.starts.Pairwise (· < ·)
  inside : ∀ o ∈ b.starts, o < b.length
  references : ∀ o ∈ b.references, o ∈ b.starts ∨ o = b.length

variable {b : Body} {o : Nat}

/-- An operation with its offset and its frames. -/
abbrev Attached := Nat × Operation Nat × List (Frame String UInt16)

/-- The events of an operation of the body. -/
def eventsAt (b : Body) (x : Attached) : List BodyEvent :=
  operationEvents b.label b.labels (linesAt b.lines) x

theorem eventsAt_eq (b : Body) (x : Attached) : b.eventsAt x =
    (if x.1 ∈ b.references then [.label (b.label x.1)] else []) ++
      (((b.lines.filter (·.start.toNat = x.1)).map fun l => .lineNumber l.line (b.label x.1)) ++
        (x.2.2.map fun f => .frame (f.map id fun o => b.label o.toNat)) ++
        [.operation (x.2.1.map b.label)]) := by
  have hframe : ∀ f : Frame String UInt16, Id.run (f.mapM (m := Id) pure fun o =>
      pure (b.label o.toNat)) = f.map id fun o => b.label o.toNat := fun f =>
    f.mapM_id id fun o : UInt16 => b.label o.toNat
  have hop : Id.run (x.2.1.mapM (m := Id) fun o => pure (b.label o)) = x.2.1.map b.label :=
    x.2.1.mapM_id b.label
  simp only [eventsAt, operationEvents, labels_toList, getD_linesAt, hframe, hop, List.map_map,
    List.append_assoc]
  rfl

theorem firstEvents_eq (b : Body) : firstEvents b.label b = .start b.maxStack b.maxLocals ::
    b.handlers.map fun h => .handler (h.map fun o => b.label o.toNat) := rfl

theorem lastEvents_eq (b : Body) : lastEvents b.label b b.labels =
    (if b.length ∈ b.references then [.label (b.label b.length)] else []) ++
      b.locals.map (fun v => .localVariable false (localVariable b.label v)) ++
      b.genericLocals.map (fun v => .localVariable true (localVariable b.label v)) ++
      b.annotations.map (fun a => .annotatedType (a.map fun o => b.label o.toNat)) ++
      b.attributes.map BodyEvent.attribute ++ [.limits b.maxStack b.maxLocals] := by
  have hannotation : ∀ a : AnnotatedType UInt16, Id.run (a.mapM (m := Id) fun o =>
      pure (b.label o.toNat)) = a.map fun o => b.label o.toNat := fun a =>
    a.mapM_id fun o : UInt16 => b.label o.toNat
  simp only [lastEvents, labels_toList, hannotation]

/-- All events, with the frames attached to their operations. -/
def eventsWith (b : Body) (attached : List Attached) : List BodyEvent :=
  firstEvents b.label b ++ attached.flatMap b.eventsAt ++ lastEvents b.label b b.labels

/-- The events of a body with all its frames at operations. -/
theorem events_eq_of_attached (attached : List Attached)
    (h : attachFrames b.operations b.frames = (attached, [])) :
    b.events = (b.eventsWith attached, none) := by
  unfold events
  rw [h]
  rfl

/-- **The events of a body**, operation by operation. -/
theorem events_eq_of_none (h : b.events.2 = none) : ∃ attached : List Attached,
    b.operations = attached.map (fun x => (x.1, x.2.1)) ∧
      b.frames = attached.flatMap (fun x => x.2.2.map (x.1, ·)) ∧
      b.events.1 = b.eventsWith attached := by
  obtain ⟨attached, left, hattached, hops, hframes⟩ := attachFrames_eq b.operations b.frames
  unfold events at h ⊢
  simp only [hattached] at h ⊢
  rcases left with _ | ⟨x, left⟩
  · rw [List.append_nil] at hframes
    exact ⟨attached, hops.symm, hframes.symm, rfl⟩
  · cases h

theorem map_fst_attached {attached : List Attached}
    (h : b.operations = attached.map fun x => (x.1, x.2.1)) :
    attached.map Prod.fst = b.starts := by
  rw [starts, h, List.map_map]
  rfl

theorem mem_operations_attached {attached : List Attached} {x : Attached}
    (h : b.operations = attached.map fun x => (x.1, x.2.1)) (hx : x ∈ attached) :
    (x.1, x.2.1) ∈ b.operations := by
  rw [h]
  exact List.mem_map.2 ⟨x, hx, rfl⟩

theorem mem_frames_attached {attached : List Attached} {x : Attached} {f : Frame String UInt16}
    (h : b.frames = attached.flatMap fun x => x.2.2.map (x.1, ·)) (hx : x ∈ attached)
    (hf : f ∈ x.2.2) : (x.1, f) ∈ b.frames := by
  rw [h]
  exact List.mem_flatMap.2 ⟨x, hx, List.mem_map_of_mem hf⟩

theorem events_none (h : (attachFrames b.operations b.frames).2 = []) : b.events.2 = none := by
  unfold events
  rcases ha : attachFrames b.operations b.frames with ⟨attached, left⟩
  rw [ha] at h
  subst h
  rfl

/-! ## The places of labels -/

theorem placeOf_append {l : Label} {front behind : List BodyEvent}
    (h : ∀ e ∈ front, e.size = 0 ∧ ∀ l', e ≠ .label l') :
    BodyEvent.placeOf l (front ++ behind) = BodyEvent.placeOf l behind := by
  induction front with
  | nil => rfl
  | cons e front ih =>
    obtain ⟨hsize, hlabel⟩ := h e (by simp)
    rw [← ih fun e he => h e (by simp [he])]
    cases e with
    | label l' => exact absurd rfl (hlabel l')
    | operation op => cases hsize
    | _ => rfl

theorem placeOf_eventsAt (ho : o ∈ b.references) (x : Attached) (behind : List BodyEvent) :
    BodyEvent.placeOf (b.label o) (b.eventsAt x ++ behind) =
      if x.1 = o then some 0 else (BodyEvent.placeOf (b.label o) behind).map (· + 1) := by
  have hfront : ∀ e ∈ ((b.lines.filter (·.start.toNat = x.1)).map fun l =>
      BodyEvent.lineNumber l.line (b.label x.1)) ++
        x.2.2.map fun f => .frame (f.map id fun o => b.label o.toNat),
      e.size = 0 ∧ ∀ l', e ≠ .label l' := by
    intro e he
    obtain he | he := List.mem_append.1 he
    all_goals
      obtain ⟨_, -, rfl⟩ := List.mem_map.1 he
      exact ⟨rfl, fun _ h => by cases h⟩
  rw [eventsAt_eq, List.append_assoc, List.append_assoc]
  by_cases hx : x.1 ∈ b.references
  · rw [if_pos hx, List.singleton_append, BodyEvent.placeOf]
    by_cases hxo : x.1 = o
    · rw [if_pos hxo, if_pos (by rw [hxo])]
    · rw [if_neg hxo, if_neg fun heq => hxo (label_inj hx ho heq), placeOf_append hfront]
      rfl
  · have hxo : x.1 ≠ o := fun hxo => hx (by rw [hxo]; exact ho)
    rw [if_neg hx, List.nil_append, placeOf_append hfront, if_neg hxo]
    rfl

/-- Behind the front of a body, the place of a label is the number of operations before its
offset. -/
theorem placeOf_attached (ho : o ∈ b.references) (attached : List Attached)
    (h : o ∈ attached.map Prod.fst ∨ o = b.length) :
    BodyEvent.placeOf (b.label o) (attached.flatMap b.eventsAt ++ lastEvents b.label b b.labels) =
      some ((attached.map Prod.fst).idxOf o) := by
  induction attached with
  | nil =>
    obtain rfl : o = b.length := by simpa using h
    simp [lastEvents_eq, if_pos ho, BodyEvent.placeOf]
  | cons x rest ih =>
    rw [List.flatMap_cons, List.append_assoc, placeOf_eventsAt ho, List.map_cons, List.idxOf_cons]
    by_cases hx : x.1 = o
    · simp [hx]
    · have hrest : o ∈ rest.map Prod.fst ∨ o = b.length := by
        rw [List.map_cons, List.mem_cons] at h
        exact h.imp_left fun h => h.resolve_left (Ne.symm hx)
      rw [if_neg hx, ih hrest, beq_false_of_ne hx]
      rfl

theorem firstEvents_skip : ∀ e ∈ firstEvents b.label b, e.size = 0 ∧ ∀ l', e ≠ .label l' := by
  intro e he
  rw [firstEvents_eq] at he
  obtain rfl | he := List.mem_cons.1 he
  · exact ⟨rfl, fun _ h => by cases h⟩
  · obtain ⟨_, -, rfl⟩ := List.mem_map.1 he
    exact ⟨rfl, fun _ h => by cases h⟩

/-- **The place of a label** is the number of instructions before its offset. -/
theorem placeOf_label (hb : b.Sound) (h : b.events.2 = none) (ho : o ∈ b.references) :
    BodyEvent.placeOf (b.label o) b.events.1 = some (b.place o) := by
  obtain ⟨attached, hops, -, hevents⟩ := events_eq_of_none h
  have hstarts := map_fst_attached hops
  rw [hevents, eventsWith, List.append_assoc, placeOf_append firstEvents_skip, placeOf_attached ho,
    hstarts]
  · rfl
  · rw [hstarts]; exact hb.references o ho

/-! ## The content -/

section Content

variable {α : Type} {attached : List Attached}

/-- What is picked from the events, if no label is. -/
theorem filterMap_events {p : BodyEvent → Option α} (hp : ∀ l, p (.label l) = none) :
    (b.eventsWith attached).filterMap p =
      (p (.start b.maxStack b.maxLocals)).toList ++
      b.handlers.filterMap (fun h => p (.handler (h.map fun o => b.label o.toNat))) ++
      attached.flatMap (fun x =>
        (b.lines.filter (·.start.toNat = x.1)).filterMap
          (fun l => p (.lineNumber l.line (b.label x.1))) ++
        x.2.2.filterMap (fun f => p (.frame (f.map id fun o => b.label o.toNat))) ++
        (p (.operation (x.2.1.map b.label))).toList) ++
      (b.locals.filterMap (fun v => p (.localVariable false (localVariable b.label v))) ++
      b.genericLocals.filterMap (fun v => p (.localVariable true (localVariable b.label v))) ++
      b.annotations.filterMap (fun a => p (.annotatedType (a.map fun o => b.label o.toNat))) ++
      b.attributes.filterMap (fun a => p (.attribute a)) ++
      (p (.limits b.maxStack b.maxLocals)).toList) := by
  have hlabel : ∀ (c : Prop) [Decidable c] (l : Label),
      (if c then [BodyEvent.label l] else []).filterMap p = [] := by
    intro c _ l
    split <;> simp [hp]
  have hone : ∀ e, [e].filterMap p = (p e).toList := by
    intro e
    cases h : p e <;> simp [h]
  rw [eventsWith, firstEvents_eq, lastEvents_eq, ← List.singleton_append]
  simp only [List.filterMap_append, List.filterMap_flatMap, List.filterMap_map, hone, hlabel,
    eventsAt_eq, List.nil_append, Function.comp_def]

theorem operations_events : BodyEvent.operations (b.eventsWith attached) =
    attached.map fun x => x.2.1.map b.label := by
  rw [BodyEvent.operations, filterMap_events fun _ => rfl]
  simp [List.map_eq_flatMap]

theorem handlers_events : (b.eventsWith attached).filterMap BodyEvent.handler? =
    b.handlers.map (·.map fun o => b.label o.toNat) := by
  rw [filterMap_events fun _ => rfl]
  simp [BodyEvent.handler?]

theorem lines_events : (b.eventsWith attached).filterMap BodyEvent.line? =
    attached.flatMap fun x => (b.lines.filter (·.start.toNat = x.1)).map
      fun l => (l.line, b.label x.1) := by
  rw [filterMap_events fun _ => rfl]
  simp [BodyEvent.line?]

theorem locals_events (generic : Bool) :
    (b.eventsWith attached).filterMap (BodyEvent.local? generic) =
      (if generic then b.genericLocals else b.locals).map (localVariable b.label) := by
  rw [filterMap_events fun _ => rfl]
  cases generic <;> simp [BodyEvent.local?]

theorem annotations_events : (b.eventsWith attached).filterMap BodyEvent.annotation? =
    b.annotations.map (·.map fun o => b.label o.toNat) := by
  rw [filterMap_events fun _ => rfl]
  simp [BodyEvent.annotation?]

theorem attributes_events :
    (b.eventsWith attached).filterMap BodyEvent.attribute? = b.attributes := by
  rw [filterMap_events fun _ => rfl]
  simp [BodyEvent.attribute?]

theorem limits_events : (b.eventsWith attached).filterMap BodyEvent.limits? =
    [(b.maxStack, b.maxLocals)] := by
  rw [filterMap_events fun _ => rfl]
  simp [BodyEvent.limits?]

/-- The events of an operation end with the operation itself. -/
theorem eventsAt_front (b : Body) (x : Attached) : ∃ front,
    b.eventsAt x = front ++ [.operation (x.2.1.map b.label)] ∧ ∀ e ∈ front, e.size = 0 := by
  refine ⟨_, (eventsAt_eq b x).trans (List.append_assoc _ _ _).symm, fun e he => ?_⟩
  obtain he | he := List.mem_append.1 he
  · split at he
    · rw [List.mem_singleton.1 he]; rfl
    · cases he
  · obtain he | he := List.mem_append.1 he
    all_goals
      obtain ⟨_, -, rfl⟩ := List.mem_map.1 he
      rfl

theorem lastEvents_size : ∀ e ∈ lastEvents b.label b b.labels, e.size = 0 := by
  intro e he
  rw [lastEvents_eq] at he
  simp only [List.mem_append, List.mem_map, List.mem_singleton] at he
  rcases he with ((((he | ⟨_, -, rfl⟩) | ⟨_, -, rfl⟩) | ⟨_, -, rfl⟩) | ⟨_, -, rfl⟩) | rfl
  · split at he
    · rw [List.mem_singleton.1 he]; rfl
    · cases he
  all_goals rfl

theorem numbered_eq_map {n : Nat} {events : List BodyEvent} (h : ∀ e ∈ events, e.size = 0) :
    BodyEvent.numbered n events = events.map (n, ·) ∧ BodyEvent.operations events = [] := by
  induction events with
  | nil => exact ⟨rfl, rfl⟩
  | cons e rest ih =>
    have he := h e (by simp)
    obtain ⟨hnumbered, hnone⟩ := ih fun e he => h e (by simp [he])
    refine ⟨?_, ?_⟩
    · rw [BodyEvent.numbered, he, Nat.add_zero, hnumbered]; rfl
    · rw [← List.length_eq_zero_iff, BodyEvent.length_operations_cons, he, hnone]; rfl

theorem numbered_eventsAt (b : Body) (n : Nat) (x : Attached) :
    BodyEvent.numbered n (b.eventsAt x) = (b.eventsAt x).map (n, ·) ∧
      BodyEvent.operations (b.eventsAt x) = [x.2.1.map b.label] := by
  obtain ⟨front, hfront, hsize⟩ := b.eventsAt_front x
  obtain ⟨hnumbered, hnone⟩ := numbered_eq_map (n := n) hsize
  rw [hfront]
  refine ⟨?_, ?_⟩
  · rw [BodyEvent.numbered_append, hnumbered, hnone, List.map_append]; rfl
  · rw [BodyEvent.operations_append, hnone]; rfl

/-- **How many operations stand before each event** of an operation. -/
theorem numbered_attached (n : Nat) (h : (attached.map Prod.fst).Nodup) :
    BodyEvent.numbered n (attached.flatMap b.eventsAt) = attached.flatMap fun x =>
      (b.eventsAt x).map (n + (attached.map Prod.fst).idxOf x.1, ·) := by
  induction attached generalizing n with
  | nil => rfl
  | cons x rest ih =>
    rw [List.map_cons, List.nodup_cons] at h
    obtain ⟨hat, hone⟩ := b.numbered_eventsAt n x
    rw [List.flatMap_cons, BodyEvent.numbered_append, hat, hone, ih _ h.2, List.flatMap_cons]
    refine congrArg₂ (· ++ ·) ?_ ?_
    · rw [List.map_cons, List.idxOf_cons_self, Nat.add_zero]
    · refine List.flatMap_congr fun y hy => ?_
      have hne : x.1 ≠ y.1 := fun hxy => h.1 (hxy ▸ List.mem_map_of_mem hy)
      rw [List.map_cons, List.idxOf_cons, beq_false_of_ne hne]
      simp [Nat.add_assoc, Nat.add_comm]

/-- **How many operations stand before each event.** -/
theorem numbered_events (h : (attached.map Prod.fst).Nodup) :
    BodyEvent.numbered 0 (b.eventsWith attached) = (firstEvents b.label b).map (0, ·) ++
      attached.flatMap (fun x => (b.eventsAt x).map ((attached.map Prod.fst).idxOf x.1, ·)) ++
      (lastEvents b.label b b.labels).map (attached.length, ·) := by
  obtain ⟨hfirst, hnone⟩ := numbered_eq_map (n := 0) fun e he => (firstEvents_skip (b := b) e he).1
  have hcount : (BodyEvent.operations (firstEvents b.label b ++
      attached.flatMap b.eventsAt)).length = attached.length := by
    rw [BodyEvent.operations_append, hnone, List.nil_append, BodyEvent.operations,
      List.filterMap_flatMap]
    have hat : ∀ x, (b.eventsAt x).filterMap _ = [x.2.1.map b.label] := fun x =>
      (b.numbered_eventsAt 0 x).2
    rw [List.flatMap_congr fun x _ => hat x, ← List.map_eq_flatMap, List.length_map]
  rw [eventsWith, BodyEvent.numbered_append, BodyEvent.numbered_append, hfirst, hnone,
    List.length_nil, numbered_attached _ h, (numbered_eq_map lastEvents_size).1, hcount]
  simp

theorem frames_events (h : (attached.map Prod.fst).Nodup) :
    (BodyEvent.numbered 0 (b.eventsWith attached)).filterMap BodyEvent.frame? =
      attached.flatMap fun x => x.2.2.map fun f =>
        ((attached.map Prod.fst).idxOf x.1, f.map id fun o => b.label o.toNat) := by
  have hfirst : ((firstEvents b.label b).map (0, ·)).filterMap BodyEvent.frame? = [] := by
    rw [firstEvents_eq]
    simp [List.filterMap_map, Function.comp_def, List.filterMap_cons, BodyEvent.frame?]
  have hlast : ((lastEvents b.label b b.labels).map (attached.length, ·)).filterMap
      BodyEvent.frame? = [] := by
    rw [lastEvents_eq, List.filterMap_eq_nil_iff]
    intro x hx
    simp only [List.mem_map, List.mem_append, List.mem_singleton] at hx
    obtain ⟨e, he, rfl⟩ := hx
    rcases he with ((((he | ⟨_, -, rfl⟩) | ⟨_, -, rfl⟩) | ⟨_, -, rfl⟩) | ⟨_, -, rfl⟩) | rfl
    · split at he
      · rw [List.mem_singleton.1 he]; rfl
      · cases he
    all_goals rfl
  have hat : ∀ (n : Nat) (x : Attached), ((b.eventsAt x).map (n, ·)).filterMap BodyEvent.frame? =
      x.2.2.map fun f => (n, f.map id fun o => b.label o.toNat) := by
    intro n x
    rw [eventsAt_eq]
    split <;> simp [List.filterMap_map, Function.comp_def, List.filterMap_cons, BodyEvent.frame?]
  rw [numbered_events h, List.filterMap_append, List.filterMap_append, hfirst, hlast,
    List.nil_append, List.append_nil, List.filterMap_flatMap]
  exact List.flatMap_congr fun x _ => hat _ x

end Content

/-! ## What the body refers to -/

theorem target_mem {x : Nat × Operation Nat} (hx : x ∈ b.operations) {t : Nat}
    (ht : t ∈ x.2.targets) : t ∈ b.references := by
  have hmem : t ∈ b.operations.flatMap (·.2.targets) := List.mem_flatMap.2 ⟨x, hx, ht⟩
  simp only [references, List.mem_append]
  tauto

theorem handler_mem {h : Handler UInt16} (hh : h ∈ b.handlers) {o : UInt16}
    (ho : o ∈ h.positions) : o.toNat ∈ b.references := by
  have hmem : o.toNat ∈ (b.handlers.flatMap Handler.positions).map UInt16.toNat :=
    List.mem_map_of_mem (List.mem_flatMap.2 ⟨h, hh, ho⟩)
  simp only [references, List.mem_append]
  tauto

theorem frame_mem {x : Nat × Frame String UInt16} (hx : x ∈ b.frames) :
    x.1 ∈ b.references ∧ ∀ o ∈ x.2.positions, o.toNat ∈ b.references := by
  have hmem : ∀ o ∈ x.1 :: x.2.positions.map UInt16.toNat, o ∈ b.references := by
    intro o ho
    have hmem : o ∈ b.frames.flatMap (fun x =>
        x.1 :: x.2.positions.map UInt16.toNat) := List.mem_flatMap.2 ⟨x, hx, ho⟩
    simp only [references, List.mem_append]
    tauto
  exact ⟨hmem _ (by simp), fun o ho => hmem _ (List.mem_cons_of_mem _ (List.mem_map_of_mem ho))⟩

theorem line_mem {l : LineNumber} (hl : l ∈ b.lines) : l.start.toNat ∈ b.references := by
  have hmem : l.start.toNat ∈ b.lines.map (·.start.toNat) := List.mem_map.2 ⟨l, hl, rfl⟩
  simp only [references, List.mem_append]
  tauto

theorem local_mem {v : VariableEntry} (hv : v ∈ b.locals ++ b.genericLocals) :
    v.start.toNat ∈ b.references ∧ v.start.toNat + v.length.toNat ∈ b.references := by
  have hmem : ∀ o ∈ [v.start.toNat, v.start.toNat + v.length.toNat], o ∈ b.references := by
    intro o ho
    have hmem : o ∈ (b.locals ++ b.genericLocals).flatMap
        (fun v => [v.start.toNat, v.start.toNat + v.length.toNat]) :=
      List.mem_flatMap.2 ⟨v, hv, ho⟩
    simp only [references, List.mem_append]
    tauto
  exact ⟨hmem _ (by simp), hmem _ (by simp)⟩

theorem annotation_mem {a : AnnotatedType UInt16} (ha : a ∈ b.annotations) {o : UInt16}
    (ho : o ∈ a.target.positions) : o.toNat ∈ b.references := by
  have hmem : o.toNat ∈ (b.annotations.flatMap (·.target.positions)).map UInt16.toNat :=
    List.mem_map_of_mem (List.mem_flatMap.2 ⟨a, ha, ho⟩)
  simp only [references, List.mem_append]
  tauto

/-- What each event of an operation is. -/
theorem mem_eventsAt {x : Attached} {e : BodyEvent} (h : e ∈ b.eventsAt x) :
    e = .label (b.label x.1) ∨
      (∃ l ∈ b.lines, l.start.toNat = x.1 ∧ e = .lineNumber l.line (b.label x.1)) ∨
      (∃ f ∈ x.2.2, e = .frame (f.map id fun o => b.label o.toNat)) ∨
      e = .operation (x.2.1.map b.label) := by
  rw [eventsAt_eq] at h
  simp only [List.mem_append, List.mem_map, List.mem_filter, decide_eq_true_eq,
    List.mem_singleton] at h
  rcases h with h | (⟨l, ⟨hl, hx⟩, rfl⟩ | ⟨f, hf, rfl⟩) | rfl
  · split at h
    · exact .inl (List.mem_singleton.1 h)
    · cases h
  · exact .inr (.inl ⟨l, hl, hx, rfl⟩)
  · exact .inr (.inr (.inl ⟨f, hf, rfl⟩))
  · exact .inr (.inr (.inr rfl))

/-- Each label that an event refers to is that of an offset that the body refers to. -/
theorem references_events {attached : List Attached}
    (hops : b.operations = attached.map fun x => (x.1, x.2.1))
    (hframes : b.frames = attached.flatMap fun x => x.2.2.map (x.1, ·)) :
    ∀ e ∈ b.eventsWith attached, ∀ l ∈ e.references, ∃ o ∈ b.references, l = b.label o := by
  intro e he l hl
  rw [eventsWith, List.mem_append, List.mem_append] at he
  rcases he with (he | he) | he
  · rw [firstEvents_eq] at he
    obtain rfl | he := List.mem_cons.1 he
    · cases hl
    · obtain ⟨h, hh, rfl⟩ := List.mem_map.1 he
      rw [BodyEvent.references, Handler.positions_map] at hl
      obtain ⟨o, ho, rfl⟩ := List.mem_map.1 hl
      exact ⟨_, handler_mem hh ho, rfl⟩
  · obtain ⟨x, hx, he⟩ := List.mem_flatMap.1 he
    rcases mem_eventsAt he with rfl | ⟨line, hline, hxl, rfl⟩ | ⟨f, hf, rfl⟩ | rfl
    · cases hl
    · rw [BodyEvent.references, List.mem_singleton] at hl
      exact ⟨_, hxl ▸ line_mem hline, hl⟩
    · rw [BodyEvent.references, Frame.positions_map] at hl
      obtain ⟨o, ho, rfl⟩ := List.mem_map.1 hl
      exact ⟨_, (frame_mem (mem_frames_attached hframes hx hf)).2 o ho, rfl⟩
    · rw [BodyEvent.references, Operation.targets_map] at hl
      obtain ⟨t, ht, rfl⟩ := List.mem_map.1 hl
      exact ⟨_, target_mem (mem_operations_attached hops hx) ht, rfl⟩
  · have hlocal : ∀ v ∈ b.locals ++ b.genericLocals, l ∈ [b.label v.start.toNat,
        b.label (v.start.toNat + v.length.toNat)] → ∃ o ∈ b.references, l = b.label o := by
      intro v hv hl
      obtain ⟨hstart, hstop⟩ := local_mem hv
      simp only [List.mem_cons, List.not_mem_nil, or_false] at hl
      obtain rfl | rfl := hl
      · exact ⟨_, hstart, rfl⟩
      · exact ⟨_, hstop, rfl⟩
    rw [lastEvents_eq] at he
    simp only [List.mem_append, List.mem_map, List.mem_singleton] at he
    rcases he with ((((he | ⟨v, hv, rfl⟩) | ⟨v, hv, rfl⟩) | ⟨a, ha, rfl⟩) | ⟨_, -, rfl⟩) | rfl
    · split at he
      · rw [List.mem_singleton.1 he] at hl; cases hl
      · cases he
    · exact hlocal v (List.mem_append_left _ hv) hl
    · exact hlocal v (List.mem_append_right _ hv) hl
    · rw [BodyEvent.references, AnnotatedType.positions_map] at hl
      obtain ⟨o, ho, rfl⟩ := List.mem_map.1 hl
      exact ⟨_, annotation_mem ha ho, rfl⟩
    all_goals cases hl

/-- The operations at their places. -/
theorem operations_placed {attached : List Attached} {place : Label → Nat}
    (hops : b.operations = attached.map fun x => (x.1, x.2.1))
    (hplace : ∀ o ∈ b.references, place (b.label o) = b.place o) :
    (attached.map fun x => x.2.1.map b.label).map (·.map place) =
      b.operations.map fun x => x.2.map b.place := by
  rw [hops, List.map_map, List.map_map]
  refine List.map_congr_left fun x hx => ?_
  rw [Function.comp_apply, Function.comp_apply, Operation.map_map]
  exact Operation.map_congr fun t ht =>
    hplace t (target_mem (mem_operations_attached hops hx) ht)

/-- The frames at their places. -/
theorem frames_placed {attached : List Attached} {place : Label → Nat}
    (hops : b.operations = attached.map fun x => (x.1, x.2.1))
    (hframes : b.frames = attached.flatMap fun x => x.2.2.map (x.1, ·))
    (hplace : ∀ o ∈ b.references, place (b.label o) = b.place o) :
    (attached.flatMap fun x => x.2.2.map fun f =>
      ((attached.map Prod.fst).idxOf x.1, f.map id fun o => b.label o.toNat)).map
        (fun x => (x.1, x.2.map id place)) =
      b.frames.map fun x => (b.place x.1, x.2.map id fun o => b.place o.toNat) := by
  rw [map_fst_attached hops, hframes, List.map_flatMap, List.map_flatMap]
  refine List.flatMap_congr fun x hx => ?_
  rw [List.map_map, List.map_map]
  refine List.map_congr_left fun f hf => ?_
  have hmem := mem_frames_attached hframes hx hf
  have hmap : (f.map id fun o => b.label o.toNat).map id place =
      f.map id fun o => b.place o.toNat := by
    rw [Frame.map_map]
    exact Frame.map_congr_positions fun o ho => hplace _ ((frame_mem hmem).2 o ho)
  exact Prod.ext rfl hmap

/-- The lines at their places, instruction by instruction. -/
theorem lines_placed {attached : List Attached} {place : Label → Nat}
    (hops : b.operations = attached.map fun x => (x.1, x.2.1))
    (hplace : ∀ o ∈ b.references, place (b.label o) = b.place o) :
    (attached.flatMap fun x => (b.lines.filter (·.start.toNat = x.1)).map
      fun l => (l.line, b.label x.1)).map (fun x => (place x.2, x.1)) =
      b.starts.flatMap fun o => (b.lines.filter (·.start.toNat = o)).map
        fun l => (b.place o, l.line) := by
  rw [← map_fst_attached hops, List.flatMap_map, List.map_flatMap]
  refine List.flatMap_congr fun x _ => ?_
  rw [List.map_map]
  refine List.map_congr_left fun l hl => ?_
  obtain ⟨hl, hx⟩ := List.mem_filter.1 hl
  rw [decide_eq_true_eq] at hx
  exact Prod.ext (hplace _ (hx ▸ line_mem hl)) rfl

/-- The content of the events, given the places of the labels. -/
theorem ofEvents_eventsWith {attached : List Attached} {place : Label → Nat}
    (hnodup : (attached.map Prod.fst).Nodup)
    (hops : b.operations = attached.map fun x => (x.1, x.2.1))
    (hframes : b.frames = attached.flatMap fun x => x.2.2.map (x.1, ·))
    (hplace : ∀ o ∈ b.references, place (b.label o) = b.place o) :
    PlacedBody.ofEvents place (b.eventsWith attached) = b.placed := by
  have hhandlers : (b.handlers.map (·.map fun o => b.label o.toNat)).map (·.map place) =
      b.handlers.map (·.map fun o => b.place o.toNat) := by
    rw [List.map_map]
    refine List.map_congr_left fun h hh => ?_
    rw [Function.comp_apply, Handler.map_map]
    exact Handler.map_congr fun o ho => hplace _ (handler_mem hh ho)
  have hlocals : ∀ vs : List VariableEntry, (∀ v ∈ vs, v ∈ b.locals ++ b.genericLocals) →
      (vs.map (localVariable b.label)).map (·.placed place) = vs.map (·.placed b.place) := by
    intro vs hvs
    rw [List.map_map]
    refine List.map_congr_left fun v hv => ?_
    obtain ⟨hstart, hstop⟩ := local_mem (hvs v hv)
    simp only [Function.comp_apply, localVariable, LocalVariable.placed, VariableEntry.placed,
      hplace _ hstart, hplace _ hstop]
  have hannotations : (b.annotations.map (·.map fun o => b.label o.toNat)).map (·.map place) =
      b.annotations.map (·.map fun o => b.place o.toNat) := by
    rw [List.map_map]
    refine List.map_congr_left fun a ha => ?_
    rw [Function.comp_apply, AnnotatedType.map_map]
    exact AnnotatedType.map_congr fun o ho => hplace _ (annotation_mem ha ho)
  simp only [PlacedBody.ofEvents, placed, operations_events, frames_events hnodup, handlers_events,
    lines_events, locals_events, annotations_events, attributes_events, limits_events, hhandlers,
    operations_placed hops hplace, frames_placed hops hframes hplace, lines_placed hops hplace,
    hannotations, if_true, Bool.false_eq_true, if_false,
    hlocals b.locals fun v hv => List.mem_append_left _ hv,
    hlocals b.genericLocals fun v hv => List.mem_append_right _ hv]
  rfl

/-- **The content of the events** of a body is that of the body. -/
theorem ofEvents?_events (hb : b.Sound) (h : b.events.2 = none) :
    PlacedBody.ofEvents? b.events.1 = some b.placed := by
  obtain ⟨attached, hops, hframes, hevents⟩ := events_eq_of_none h
  have hnodup : (attached.map Prod.fst).Nodup := by
    rw [map_fst_attached hops]
    exact hb.ascending.imp Nat.ne_of_lt
  have hplaceOf := fun o (ho : o ∈ b.references) => placeOf_label hb h ho
  rw [hevents] at hplaceOf ⊢
  rw [PlacedBody.ofEvents?_eq_some
      fun l => (BodyEvent.placeOf l (b.eventsWith attached)).getD 0,
    ofEvents_eventsWith hnodup hops hframes]
  · intro o ho
    rw [hplaceOf o ho, Option.getD_some]
  · intro e he l hl
    obtain ⟨o, ho, rfl⟩ := references_events hops hframes e he l hl
    rw [hplaceOf o ho, Option.getD_some]

end Body

end FreshLocal
