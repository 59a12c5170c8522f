import FreshLocal.Proofs.LayoutByPlaces

/-!
# A body is given by its content

Between a body and its content nothing is lost but the offsets of its
instructions. A body that came out of a layout has its lines in the order of the
code and its visible annotations in front, so the content and the offsets of the
instructions give it back.

**Argument.** Let a body at the offsets of a layout be read, and its events be
laid out again. Both bodies have the content of these events, and a layout is a
function of the operations by places. So the instructions stand at the same
offsets, and the two bodies are one. Their code is the same as well.

* `PlacedBody.unplaced`: the body of a content at the given offsets.
* `Body.Ordered.eq_unplaced`: **a body in order** is the one of its content.
* `Layout.body_again`: **a body that is laid out again** is the same.
-/

namespace FreshLocal

/-! ## Changes of positions that change none -/

section Same

variable {π : Type} {f : π → π}

theorem Operation.map_eq_self {op : Operation π} (h : ∀ x ∈ op.targets, f x = x) :
    op.map f = op := by
  have hid : op.map id = op := by
    cases op with
    | plain i => rfl
    | branch b => cases b <;> simp [map, Branch.map]
  exact (map_congr h).trans hid

theorem Handler.map_eq_self {x : Handler π} (h : ∀ o ∈ x.positions, f o = o) : x.map f = x :=
  (map_congr (g := id) h).trans rfl

theorem AnnotatedType.map_eq_self {a : AnnotatedType π}
    (h : ∀ x ∈ a.target.positions, f x = x) : a.map f = a := by
  have hid : a.map id = a := by
    obtain ⟨visible, target, path, body⟩ := a
    cases target <;> simp [map, AnnotationTarget.map]
  exact (map_congr h).trans hid

theorem Frame.map_eq_self {κ : Type} {x : Frame κ π} (h : ∀ o ∈ x.positions, f o = o) :
    x.map id f = x := by
  have htype : (VerificationType.map id id : VerificationType κ π → _) = id := by
    funext t
    cases t <;> rfl
  have hid : x.map id id = x := by
    cases x with
    | same | chop _ => rfl
    | sameOne t => rw [map, htype]; rfl
    | append more => rw [map, htype, List.map_id]
    | full locals stack => rw [map, htype, List.map_id, List.map_id]
  exact (map_congr_positions h).trans hid

end Same

/-! ## Content and body -/

/-- A variable at the offsets of its places. -/
def PlacedVariable.unplaced (v : PlacedVariable) (at_ : Nat → UInt16) : VariableEntry :=
  ⟨at_ v.start, at_ v.stop - at_ v.start, v.name, v.type, v.slot⟩

/-- The body of a content, given the offsets of its instructions and of the end. -/
def PlacedBody.unplaced (p : PlacedBody) (starts : List Nat) (length : Nat) : Body :=
  let offset := fun k => starts[k]?.getD length
  let offset16 := fun k => UInt16.ofNat (offset k)
  let limits := p.limits.getD (0, 0)
  { maxStack := limits.1, maxLocals := limits.2, length
    operations := starts.zip (p.operations.map (·.map offset))
    handlers := p.handlers.map (·.map offset16)
    frames := p.frames.map fun x => (offset x.1, x.2.map id offset16)
    lines := p.lines.map fun x => ⟨offset16 x.1, x.2⟩
    locals := p.locals.map (·.unplaced offset16)
    genericLocals := p.genericLocals.map (·.unplaced offset16)
    annotations := p.visible.map (·.map offset16) ++ p.invisible.map (·.map offset16)
    attributes := p.attributes }

namespace Body

variable {b b' : Body} {o : Nat}

/-- A body whose lines are in the order of the code, each at an instruction, and whose visible
annotations are in front. -/
structure Ordered (b : Body) : Prop extends b.Sound where
  lines : (b.lines.map (·.start.toNat)).Pairwise (· ≤ ·)
  linesAt : ∀ l ∈ b.lines, l.start.toNat ∈ b.starts
  annotations : b.annotations =
    b.annotations.filter (·.visible == true) ++ b.annotations.filter (·.visible == false)

/-- The offset of an instruction, or the end. -/
def offsetAt (b : Body) (k : Nat) : Nat := b.starts[k]?.getD b.length

namespace Sound

variable (hb : b.Sound)

include hb

/-- An offset is given by its place. -/
theorem offsetAt_place (ho : o ∈ b.references) : b.offsetAt (b.place o) = o := by
  rw [place, offsetAt]
  by_cases hmem : o ∈ b.starts
  · rw [List.getElem?_idxOf hmem, Option.getD_some]
  · rw [List.idxOf_eq_length hmem, List.getElem?_eq_none (Nat.le_refl _), Option.getD_none]
    exact ((hb.references o ho).resolve_left hmem).symm

theorem offset16_place {o : UInt16} (ho : o.toNat ∈ b.references) :
    UInt16.ofNat (b.offsetAt (b.place o.toNat)) = o := by
  rw [hb.offsetAt_place ho, UInt16.ofNat_toNat]

theorem operations_unplaced : b.starts.zip ((b.operations.map fun x => x.2.map b.place).map
    (·.map b.offsetAt)) = b.operations := by
  rw [List.map_map, starts, List.zip_map']
  refine (List.map_congr_left fun x hx => ?_).trans b.operations.map_id
  refine Prod.ext rfl ((Operation.map_map _ _ x.2).trans (Operation.map_eq_self fun t ht => ?_))
  exact hb.offsetAt_place (target_mem hx ht)

theorem handlers_unplaced : (b.handlers.map (·.map fun o => b.place o.toNat)).map
    (·.map fun k => UInt16.ofNat (b.offsetAt k)) = b.handlers := by
  rw [List.map_map]
  refine (List.map_congr_left fun h hh => ?_).trans b.handlers.map_id
  rw [Function.comp_apply, Handler.map_map]
  exact Handler.map_eq_self fun o ho => hb.offset16_place (handler_mem hh ho)

theorem frames_unplaced : (b.frames.map fun x =>
    (b.place x.1, x.2.map id fun o => b.place o.toNat)).map
      (fun x => (b.offsetAt x.1, x.2.map id fun k => UInt16.ofNat (b.offsetAt k))) = b.frames := by
  rw [List.map_map]
  refine (List.map_congr_left fun x hx => ?_).trans b.frames.map_id
  obtain ⟨hplace, hpositions⟩ := frame_mem hx
  refine Prod.ext (hb.offsetAt_place hplace) ((Frame.map_map _ _ _ _ x.2).trans ?_)
  exact Frame.map_eq_self fun o ho => hb.offset16_place (hpositions o ho)

/-- **A variable** is given by its places. -/
theorem local_unplaced {v : VariableEntry} (hv : v ∈ b.locals ++ b.genericLocals) :
    (v.placed b.place).unplaced (fun k => UInt16.ofNat (b.offsetAt k)) = v := by
  obtain ⟨hstart, hstop⟩ := local_mem hv
  have hlength : UInt16.ofNat (v.start.toNat + v.length.toNat) - v.start = v.length := by
    rw [UInt16.ofNat_add, UInt16.ofNat_toNat, UInt16.ofNat_toNat, UInt16.add_comm,
      UInt16.add_sub_cancel]
  rw [VariableEntry.placed, PlacedVariable.unplaced]
  dsimp only
  rw [hb.offsetAt_place hstop, hb.offset16_place hstart, hlength]

theorem locals_unplaced {vs : List VariableEntry}
    (hvs : ∀ v ∈ vs, v ∈ b.locals ++ b.genericLocals) :
    (vs.map (·.placed b.place)).map (·.unplaced fun k => UInt16.ofNat (b.offsetAt k)) = vs := by
  rw [List.map_map]
  exact (List.map_congr_left fun v hv => hb.local_unplaced (hvs v hv)).trans vs.map_id

theorem annotations_unplaced (visible : Bool) :
    (((b.annotations.map (·.map fun o => b.place o.toNat)).filter (·.visible == visible)).map
      (·.map fun k => UInt16.ofNat (b.offsetAt k))) =
        b.annotations.filter (·.visible == visible) := by
  have hcomp : (fun x : AnnotatedType Nat => x.visible == visible) ∘
      (fun a : AnnotatedType UInt16 => a.map fun o => b.place o.toNat) =
        fun a => a.visible == visible := rfl
  rw [List.filter_map, hcomp, List.map_map]
  refine (List.map_congr_left fun a ha => ?_).trans (List.map_id _)
  rw [Function.comp_apply, AnnotatedType.map_map]
  exact AnnotatedType.map_eq_self fun o ho =>
    hb.offset16_place (annotation_mem (List.mem_filter.1 ha).1 ho)

end Sound

/-- Lines in the order of the code are given instruction by instruction. -/
theorem Ordered.lines_unplaced (hb : b.Ordered) :
    (b.starts.flatMap fun o => (b.lines.filter (·.start.toNat = o)).map
      fun l => (b.place o, l.line)).map
        (fun x => (⟨UInt16.ofNat (b.offsetAt x.1), x.2⟩ : LineNumber)) = b.lines := by
  rw [List.map_flatMap]
  refine (List.flatMap_congr fun o ho => ?_).trans
    (flatMap_filter_eq hb.ascending hb.lines hb.linesAt)
  rw [List.map_map]
  refine (List.map_congr_left fun l hl => ?_).trans (List.map_id _)
  obtain ⟨hmem, hstart⟩ := List.mem_filter.1 hl
  rw [Function.comp_apply, ← of_decide_eq_true hstart, hb.toSound.offset16_place (line_mem hmem)]
  rfl

/-- **A body in order** is the one of its content at the offsets of its instructions. -/
theorem Ordered.eq_unplaced (hb : b.Ordered) : b.placed.unplaced b.starts b.length = b := by
  have hsound := hb.toSound
  have hoffset : ∀ k, b.starts[k]?.getD b.length = b.offsetAt k := fun _ => rfl
  unfold placed PlacedBody.unplaced
  simp only [hoffset]
  rw [hsound.operations_unplaced, hsound.handlers_unplaced, hsound.frames_unplaced,
    hb.lines_unplaced, hsound.locals_unplaced fun v hv => List.mem_append_left _ hv,
    hsound.locals_unplaced fun v hv => List.mem_append_right _ hv, hsound.annotations_unplaced,
    hsound.annotations_unplaced, ← hb.annotations]
  rfl

/-- **Two bodies in order** with one content are the same, if their instructions stand at the same
offsets. -/
theorem Ordered.eq_of_placed (hb : b.Ordered) (hb' : b'.Ordered) (hstarts : b'.starts = b.starts)
    (hlength : b'.length = b.length) (hplaced : b'.placed = b.placed) : b' = b := by
  rw [← hb.eq_unplaced, ← hb'.eq_unplaced, hstarts, hlength, hplaced]

end Body

/-! ## A body that is laid out again -/

namespace Layout

variable {layout layout' : Layout} {pool pool' : ConstantPool} {events : List BodyEvent}
  {maxStack maxLocals : UInt16}

/-- **The body at the offsets of a layout** is in order. -/
theorem ordered_body (maxStack maxLocals : UInt16)
    (h : layout.Sound (events.filterMap BodyEvent.item?))
    (hall : BodyEvent.StorableAll pool events) (hordered : layout.Ordered events) :
    (layout.body events maxStack maxLocals).Ordered := by
  obtain ⟨hlines, hlinesAt⟩ := pairwise_lines maxStack maxLocals h hall
  refine ⟨sound_body maxStack maxLocals h hall hordered, hlines, fun l hl => ?_, ?_⟩
  · rw [starts_body]
    exact hlinesAt l hl
  · rw [annotations_body, annotations_body]
    rfl

/-- **A body that is laid out again** is the same, and so is its code. -/
theorem body_again (hlayout : ofItems (events.filterMap BodyEvent.item?) = .ok layout)
    (hall : BodyEvent.StorableAll pool events) (hordered : layout.Ordered events)
    (hlimits : (events.filterMap BodyEvent.limits?).getLast? = some (maxStack, maxLocals))
    {b : Body} (hb : layout.body events maxStack maxLocals = b)
    (hlayout' : ofItems (b.events.1.filterMap BodyEvent.item?) = .ok layout')
    (hall' : BodyEvent.StorableAll pool' b.events.1) (hordered' : layout'.Ordered b.events.1)
    (hlimits' : (b.events.1.filterMap BodyEvent.limits?).getLast? = some (maxStack, maxLocals)) :
    layout'.body b.events.1 maxStack maxLocals = b ∧ layout'.code = layout.code := by
  subst hb
  have hsound := ofItems_eq_ok hlayout
  have hsound' := ofItems_eq_ok hlayout'
  have hbody := ordered_body maxStack maxLocals hsound hall hordered
  have hbody' := ordered_body maxStack maxLocals hsound' hall' hordered'
  have hplaced := placed_body hsound hall hordered hlimits
  have hplaced' := placed_body hsound' hall' hordered' hlimits'
  -- the events of the body have its content
  have hevents := Body.ofEvents?_events hbody.toSound (events_body _ _ hsound hall)
  obtain ⟨hstarts, hlength, hcode⟩ := of_places hlayout hplaced
  obtain ⟨hstarts', hlength', hcode'⟩ := of_places hlayout' hevents
  refine ⟨hbody.eq_of_placed hbody' ?_ (hlength'.trans hlength.symm) ?_, hcode'.trans hcode.symm⟩
  · rw [starts_body, starts_body]
    exact hstarts'.trans hstarts.symm
  · exact Option.some.inj (hplaced'.symm.trans hevents)

end Layout

end FreshLocal
