import FreshLocal.Proofs.CodeRoundTrip
import FreshLocal.Proofs.DraftRequests
import FreshLocal.Proofs.Truncation

/-!
# The stack map of a body is read back

The frames of a body become entries of one table, each at a distance from the one
before. The classes that they name are looked up in a pool that grows on the way,
so the table is read with the pool that there is in the end. Two frames have a
distance only if an operation stands between them.

* `Layout.frames`: the frames of a body at the offsets of a layout.
* `Layout.Clash`: two frames with no operation between them.
* `Laid.offset_eq_iff`: two frames stand at one offset just if they clash.
* `Draft.MapStored`: the table of a body that was stored, and what is read from it.
* `Draft.frames_of_assemble`: **the table is read back as the frames**, and a body is refused
  for its frames just if two of them clash.
-/

namespace FreshLocal

variable {layout : Layout} {pool pool' : ConstantPool} {d : Draft}

/-! ## Frames with no operation between them -/

namespace Laid

variable {o stop : Nat} {xs ys between after : List PlacedItem} {p p' : PlacedItem}

theorem append (h : Laid o (xs ++ ys) stop) : ∃ m, Laid o xs m ∧ Laid m ys stop := by
  induction xs generalizing o with
  | nil => exact ⟨o, rfl, h⟩
  | cons x xs ih =>
    obtain ⟨hx, hrest⟩ := h
    obtain ⟨m, hxs, hys⟩ := ih hrest
    exact ⟨m, ⟨hx, hxs⟩, hys⟩

/-- Without an operation all items stand at one offset, the one at which they end. -/
theorem offset_of_none (h : Laid o xs stop) (hnone : ∀ x ∈ xs, ∀ op, x.item ≠ .operation op) :
    stop = o ∧ ∀ x ∈ xs, x.offset = o := by
  induction xs generalizing o with
  | nil => exact ⟨h.symm, fun x hx => by cases hx⟩
  | cons x xs ih =>
    obtain ⟨rfl, hrest⟩ := h
    rw [List.forall_mem_cons] at hnone
    rw [width_other hnone.1, Nat.add_zero] at hrest
    obtain ⟨hstop, hall⟩ := ih hrest hnone.2
    exact ⟨hstop, List.forall_mem_cons.2 ⟨rfl, hall⟩⟩

/-- **An item that takes no bytes** is at the offset of a later one just if no operation stands
between them. -/
theorem offset_eq_iff (h : Laid o (p :: (between ++ p' :: after)) stop)
    (hp : ∀ op, p.item ≠ .operation op) :
    p.offset = p'.offset ↔ ∀ x ∈ between, ∀ op, x.item ≠ .operation op := by
  obtain ⟨rfl, hrest⟩ := h
  rw [width_other hp, Nat.add_zero] at hrest
  obtain ⟨m, hbetween, rfl, -⟩ := hrest.append
  refine ⟨fun hsame x hx op hop => ?_, fun hnone => (hbetween.offset_of_none hnone).1.symm⟩
  obtain ⟨hle, hend⟩ := hbetween.le.2 x hx
  have hpos := width_pos (o := x.offset) op x.wide
  rw [hop] at hend
  omega

end Laid

namespace Layout

/-- **Two frames clash** if no operation stands between them. -/
structure Clash (layout : Layout) (before : List PlacedItem) (p : PlacedItem)
    (between : List PlacedItem) (p' : PlacedItem) (after : List PlacedItem) : Prop where
  items : layout.items = before ++ p :: (between ++ p' :: after)
  first : ∃ f, p.item = .frame f
  second : ∃ f, p'.item = .frame f
  between : ∀ x ∈ between, ∀ op, x.item ≠ .operation op

variable {before between after : List PlacedItem} {p p' : PlacedItem}

/-- Frames that clash stand at one offset, together with all that is between them. -/
theorem Clash.offset (h : layout.Clash before p between p' after)
    (hlaid : Laid 0 layout.items layout.length) : ∀ x ∈ p :: between, x.offset = p'.offset := by
  obtain ⟨hitems, ⟨f, hf⟩, -, hnone⟩ := h
  rw [hitems] at hlaid
  obtain ⟨m, -, hrest⟩ := hlaid.append
  rw [← List.cons_append] at hrest
  obtain ⟨m', hfront, rfl, -⟩ := hrest.append
  have hfront' : ∀ x ∈ p :: between, ∀ op, x.item ≠ .operation op :=
    List.forall_mem_cons.2 ⟨by simp [hf], hnone⟩
  obtain ⟨hstop, hall⟩ := hfront.offset_of_none hfront'
  exact fun x hx => (hall x hx).trans hstop.symm

/-- **The last frame** of a run is that of the items that were stored. -/
theorem lastFrame_foldlM {items : List PlacedItem} {done next : Assembled}
    (hlast : done.lastFrame = (before.filterMap PlacedItem.frame?).getLast?.map Prod.fst)
    (h : (items.foldlM layout.assembleItem done).run pool = .ok next pool') :
    next.lastFrame = ((before ++ items).filterMap PlacedItem.frame?).getLast?.map Prod.fst := by
  induction items generalizing before done pool with
  | nil =>
    obtain ⟨rfl, -⟩ := PoolM.pure_eq_ok.1 h
    rwa [List.append_nil]
  | cons x items ih =>
    rw [List.foldlM_cons] at h
    obtain ⟨between, pool₁, hitem, hrest⟩ := PoolM.bind_eq_ok.1 h
    have hnext := ih (lastFrame_assembleItem hlast hitem) hrest
    rwa [List.append_assoc, List.singleton_append] at hnext

/-- **The second of two frames that clash is refused**, once all before it was stored. -/
theorem Clash.assembleItem (h : layout.Clash before p between p' after)
    (hlaid : Laid 0 layout.items layout.length) {done : Assembled}
    (hdone : ((before ++ p :: between).foldlM layout.assembleItem ⟨[], [], none⟩).run pool =
      .ok done pool') :
    (layout.assembleItem done p').run pool' = .error (.conflictingFrames p'.offset) pool' := by
  have hoffset := h.offset hlaid
  obtain ⟨-, ⟨f, hf⟩, ⟨f', hf'⟩, -⟩ := h
  have hstart : none = (([] : List PlacedItem).filterMap PlacedItem.frame?).getLast?.map Prod.fst :=
    rfl
  have hlast := lastFrame_foldlM hstart hdone
  -- the last frame so far is the first of the two, or one that stands behind it
  have hsome : done.lastFrame = some p'.offset := by
    have hp : p.frame? = some (p.offset, f) := by rw [PlacedItem.frame?, hf]
    rw [List.nil_append, List.filterMap_append, List.getLast?_append_of_ne_nil _ (by
      rw [List.filterMap_cons_some hp]; simp)] at hlast
    obtain ⟨y, hy⟩ : ∃ y, ((p :: between).filterMap PlacedItem.frame?).getLast? = some y := by
      rw [List.filterMap_cons_some hp, List.getLast?_cons]
      exact ⟨_, rfl⟩
    obtain ⟨x, hx, hxy⟩ := List.mem_filterMap.1 (List.mem_of_getLast? hy)
    rw [hlast, hy, Option.map_some, ← (PlacedItem.frame?_eq_some.1 hxy).1, hoffset x hx]
  have hnone : StackMapFrame.distance? done.lastFrame p'.offset = none := by
    rw [hsome, StackMapFrame.distance?, if_pos rfl]
  unfold Layout.assembleItem
  rw [hf']
  dsimp only
  rw [hnone]
  rfl

end Layout

/-! ## The table of the frames -/

/-- The frame that an item is. -/
def BodyItem.frame? : BodyItem → Option CodeFrame
  | .frame f => some f
  | _ => none

/-- **The frames of a body**, each at its offset and with the offsets of its labels. -/
def Layout.frames (layout : Layout) : List (Nat × Frame String UInt16) :=
  (layout.items.filterMap PlacedItem.frame?).map fun x => (x.1, x.2.map id layout.offsetD16)

/-- Are the lists of all full frames short enough for their lengths to be written? -/
def Draft.ShortLists (d : Draft) : Prop :=
  ∀ locals stack, .frame (.full locals stack) ∈ d.items.toList →
    locals.length ≤ 65535 ∧ stack.length ≤ 65535

/-- **The table of the frames of a body that was stored**, and what it is read as. -/
structure Draft.MapStored (d : Draft) (layout : Layout) (c : CodeAttribute)
    (pool : ConstantPool) : Prop where
  /-- The frames are those of the draft in their order. -/
  frames : (layout.items.filterMap PlacedItem.frame?).map Prod.snd =
    d.items.toList.filterMap BodyItem.frame?
  /-- The offset of a label in a frame is the one that the layout gives to it. -/
  exact : ∀ f, .frame f ∈ d.items.toList → ∀ l ∈ f.positions,
    layout.offset l = .ok (layout.offsetD16 l).toNat
  /-- There is a table just if there is a frame, and it is read back unless it is too long for its
  length to be written. No other attribute that was made has its name. -/
  table : ∃ table others, c.attributes = table ++ others ++ d.attributes.toList ∧
    (∀ a ∈ others, pool.utf8 a.name ≠ .ok StackMapFrame.tableName) ∧
    ((layout.frames = [] ∧ table = []) ∨
      layout.frames ≠ [] ∧ ∃ a, table = [a] ∧ pool.utf8 a.name = .ok StackMapFrame.tableName ∧
        (CodePart.read pool a = .ok (.frames layout.frames) ↔ layout.frames.length ≤ 65535))

/-- Attributes with some names are made, each with an index for its name in a pool that grows. -/
structure Names (names : List String) (attributes : List Attribute) (pool pool' : ConstantPool) :
    Prop where
  grows : pool.Grows pool'
  count : pool'.count ≤ 65535
  name : ∀ a ∈ attributes, ∃ name ∈ names, pool'.utf8 a.name = .ok name

/-- **Attributes keep their names** while others are made. -/
theorem Names.append {names names' : List String} {as as' : List Attribute}
    {p q r : ConstantPool} (h : Names names as p q) (h' : Names names' as' q r) :
    Names (names ++ names') (as ++ as') p r := by
  refine ⟨h.grows.trans h'.grows, h'.count, fun a ha => ?_⟩
  obtain ha | ha := List.mem_append.1 ha
  · obtain ⟨name, hname, hutf8⟩ := h.name a ha
    exact ⟨name, List.mem_append_left _ hname, h'.grows.utf8 hutf8⟩
  · obtain ⟨name, hname, hutf8⟩ := h'.name a ha
    exact ⟨name, List.mem_append_right _ hname, hutf8⟩

theorem names_of_tableAttribute {α : Type} {name : String} {write : List α → Bytes}
    {entries : List α} {attributes : List Attribute} (hcount : pool.count ≤ 65535)
    (h : (tableAttribute name write entries).run pool = .ok attributes pool') :
    Names [name] attributes pool pool' := by
  obtain ⟨-, rfl, rfl⟩ | ⟨-, index, hindex, rfl⟩ := tableAttribute_cases h
  · exact ⟨.refl _, hcount, fun a ha => by cases ha⟩
  · obtain ⟨hgrows, hcount', hname⟩ :=
      (ConstantPool.interns_count (.utf8 name)).givesText hcount hindex
    refine ⟨hgrows, hcount', fun a ha => ⟨name, List.mem_singleton_self _, ?_⟩⟩
    rw [List.mem_singleton.1 ha]
    exact hname

/-- A table whose entries are looked up first. -/
theorem names_of_table {α : Type} {name : String} {write : List α → Bytes}
    {entries : Except Fault (List α)} {attributes : List Attribute} (hcount : pool.count ≤ 65535)
    (h : (MonadExcept.ofExcept entries >>= tableAttribute name write : PoolM _).run pool =
      .ok attributes pool') : Names [name] attributes pool pool' := by
  obtain ⟨found, p, hfound, h⟩ := PoolM.bind_eq_ok.1 h
  obtain ⟨-, rfl⟩ := PoolM.ofExcept_eq_ok.1 hfound
  exact names_of_tableAttribute hcount h

/-- **A table of frames** is read back just if its length can be written. -/
theorem CodePart.read_frames_iff {a : Attribute} {frames : List StackMapFrame}
    {fs : List (Nat × Frame String UInt16)} (hname : pool.utf8 a.name = .ok StackMapFrame.tableName)
    (hbody : a.body = StackMapFrame.writeTable frames) (hfits : ∀ f ∈ frames, f.frame.Fits)
    (hresolve : resolveFrames pool frames = .ok fs) :
    read pool a = .ok (.frames fs) ↔ frames.length ≤ 65535 := by
  refine ⟨fun h => ?_, fun hlen => ?_⟩
  · obtain ⟨name, hname', h⟩ := Except.bind_eq_ok.1 h
    obtain rfl : StackMapFrame.tableName = name := Except.ok.inj (hname ▸ hname')
    rw [if_pos rfl] at h
    obtain ⟨table, htable, -⟩ := Except.bind_eq_ok.1 h
    rw [hbody] at htable
    exact Reader.length_le_of_whole (fun f _ => f.write_ne_nil)
      (fun f hf _ => StackMapFrame.finds_write (hfits f hf)) htable
  · exact read_frames hname (hbody ▸ StackMapFrame.readTable_write hlen hfits) hresolve

namespace Draft

theorem frames_of_sound (h : layout.Sound d.items.toList) :
    (layout.items.filterMap PlacedItem.frame?).map Prod.snd =
      d.items.toList.filterMap BodyItem.frame? := by
  rw [← h.items, List.filterMap_map, List.map_filterMap]
  refine List.filterMap_congr fun p _ => ?_
  unfold PlacedItem.frame? BodyItem.frame?
  dsimp only [Function.comp_apply]
  cases p.item <;> rfl

/-- **The table of the frames of a body** that was stored is read back. -/
theorem mapStored_of_assemble {c : CodeAttribute} (hcount : pool.count ≤ 65535)
    (hshort : d.ShortLists) (h : d.assemble.run pool = .ok c pool') :
    ∃ layout, Layout.ofItems d.items.toList = .ok layout ∧ d.MapStored layout c pool' := by
  obtain ⟨layout, done, handlers, table, lines, locals, genericLocals, visible, invisible, pool₁,
    pool₂, pool₃, pool₄, pool₅, pool₆, hlayout, hdone, -, htable, hlines, hlocals, hgenerics,
    hvisible, hinvisible, rfl⟩ := assemble_iff.1 h
  have hsound := Layout.ofItems_eq_ok hlayout
  -- the frames are stored with the pool that grows by their classes
  have hfull : ∀ x ∈ layout.items.filterMap PlacedItem.frame?, ∀ locals stack,
      x.2 = .full locals stack → locals.length ≤ 65535 ∧ stack.length ≤ 65535 := by
    rintro ⟨o, f⟩ hx locals stack rfl
    obtain ⟨p, hp, hframe⟩ := List.mem_filterMap.1 hx
    refine hshort locals stack ?_
    rw [← hsound.items, ← (PlacedItem.frame?_eq_some.1 hframe).2]
    exact List.mem_map_of_mem hp
  have hclass : ∀ name, ConstantPool.GivesClass (·.count ≤ 65535) name := fun name =>
    (ConstantPool.interns_count (.utf8 name)).givesClass fun n => ConstantPool.interns_count _
  obtain ⟨-, hcount₁, frames, hframes, hstored⟩ := Layout.assembleItems_frames hsound.laid
    (fun _ _ name _ => hclass name) hfull hcount (fun q hq => by cases hq) hdone
  rw [List.append_nil] at hframes
  rw [hframes, List.reverse_reverse] at htable
  have hlength : frames.length = layout.frames.length := by
    rw [hstored.count, Layout.frames, List.length_map]
  -- and behind them the pool grows by the names of the tables
  have hnamed := names_of_tableAttribute hcount₁ htable
  have hlines := names_of_table hnamed.count hlines
  have hlocals := names_of_table hlines.count hlocals
  have hgenerics := names_of_table hlocals.count hgenerics
  have hvisible := names_of_table hgenerics.count hvisible
  have hinvisible := names_of_table hvisible.count hinvisible
  have hothers :=
    (((hlines.append hlocals).append hgenerics).append hvisible).append hinvisible
  refine ⟨layout, hlayout, frames_of_sound hsound, fun f hf l hl => ?_,
    table, lines ++ locals ++ genericLocals ++ visible ++ invisible, by simp, ?_, ?_⟩
  · obtain ⟨stored, -, hpositions⟩ :=
      Layout.assembleItems_positions hsound.laid (fun q hq => by cases hq) hdone
    have hoffset := hsound.offset_of_frame hpositions hf hl
    rw [hsound.toNat_of_offset hoffset, hoffset]
  · intro a ha hframes
    obtain ⟨name, hname, hutf8⟩ := hothers.name a ha
    obtain rfl : StackMapFrame.tableName = name := Except.ok.inj (hframes ▸ hutf8)
    exact absurd hname (by decide)
  · rw [← hlength, Ne, ← List.length_eq_zero_iff, ← hlength, List.length_eq_zero_iff]
    obtain ⟨hnil, rfl, -⟩ | ⟨hsome, index, -, rfl⟩ := tableAttribute_cases htable
    · exact .inl ⟨hnil, rfl⟩
    · obtain ⟨name, hname, hutf8⟩ := hnamed.name _ (List.mem_singleton_self _)
      rw [List.mem_singleton.1 hname] at hutf8
      have hutf8 := hothers.grows.utf8 hutf8
      exact .inr ⟨hsome, _, rfl, hutf8, CodePart.read_frames_iff hutf8 rfl hstored.fits
        (hstored.read _ (hnamed.grows.trans hothers.grows))⟩

/-- **A body that is refused for its frames** has two that clash. -/
theorem clash_of_assemble {o : Nat}
    (h : d.assemble.run pool = .error (.conflictingFrames o) pool') :
    ∃ layout, Layout.ofItems d.items.toList = .ok layout ∧
      ∃ before p between p' after, layout.Clash before p between p' after ∧ p'.offset = o := by
  cases hlayout : Layout.ofItems d.items.toList with
  | error fault =>
    have hsafe : PoolM.Safe (fun _ => True) Layout.Fails d.assemble :=
      .bind_ofExcept (Layout.fails_ofItems _) fun layout hok => by rw [hlayout] at hok; cases hok
    cases (hsafe.error _ _ _ trivial h).2
  | ok layout =>
    have hsafe : PoolM.Safe (fun _ => True)
        (fun fault => layout.Refuses fault ∨ ∃ index, fault = .constantPoolFull index)
        d.assemble := by
      refine safe_assemble_laid (fun _ => .inl) hlayout fun r _ => ?_
      exact r.safe_index (fun index => .inr ⟨index, rfl⟩) (ConstantPool.addKeeps_true _)
        fun n => ConstantPool.addKeeps_true _
    obtain hrefuses | ⟨index, hfull⟩ := (hsafe.error _ _ _ trivial h).2
    · cases hrefuses with
      | @conflict before between after p p' f f' hitems hp hp' hsame =>
        have hlaid := (Layout.ofItems_eq_ok hlayout).laid
        rw [hitems] at hlaid
        obtain ⟨m, -, hrest⟩ := hlaid.append
        have hbetween := (hrest.offset_eq_iff (by simp [hp])).1 hsame
        exact ⟨layout, rfl, before, p, between, p', after,
          ⟨hitems, ⟨f, hp⟩, ⟨f', hp'⟩, hbetween⟩, rfl⟩
    · cases hfull

/-- **A body with two frames that clash** is refused for them, if all before the second one can be
stored. -/
theorem assemble_of_clash {before between after : List PlacedItem} {p p' : PlacedItem}
    {done : Assembled} (hlayout : Layout.ofItems d.items.toList = .ok layout)
    (h : layout.Clash before p between p' after)
    (hdone : ((before ++ p :: between).foldlM layout.assembleItem ⟨[], [], none⟩).run pool =
      .ok done pool') :
    d.assemble.run pool = .error (.conflictingFrames p'.offset) pool' := by
  have hrefused := h.assembleItem (Layout.ofItems_eq_ok hlayout).laid hdone
  have hitems : layout.items = (before ++ p :: between) ++ p' :: after := by
    rw [h.items, List.append_assoc, List.cons_append]
  have hfold : (layout.items.foldlM layout.assembleItem ⟨[], [], none⟩).run pool =
      .error (.conflictingFrames p'.offset) pool' := by
    rw [hitems, List.foldlM_append, PoolM.bind_eq_error]
    refine .inr ⟨done, _, hdone, ?_⟩
    rw [List.foldlM_cons, PoolM.bind_eq_error]
    exact .inl hrefused
  refine PoolM.bind_eq_error.2 (.inr ⟨layout, pool, PoolM.ofExcept_eq_ok.2 ⟨hlayout, rfl⟩, ?_⟩)
  exact PoolM.bind_eq_error.2 (.inl hfold)

/-- **Frames survive the writing of a body.** Let the lengths of the lists be such that they can be
written, and let the pool have an index for each of its slots, as each pool has that was read or
added to. If the body can be stored, the table that is made of its frames is read back as them, each
at its offset and with the names of its classes and the offsets of its labels, with the pool that
there is in the end. The body is refused for its frames only if two of them have no operation
between them; and it is, if there is a layout and all before the second of them can be stored. -/
theorem frames_of_assemble (d : Draft) (pool : ConstantPool) :
    (pool.count ≤ 65535 → d.ShortLists → ∀ c pool', d.assemble.run pool = .ok c pool' →
      ∃ layout, Layout.ofItems d.items.toList = .ok layout ∧ d.MapStored layout c pool') ∧
    (∀ o pool', d.assemble.run pool = .error (.conflictingFrames o) pool' →
      ∃ layout, Layout.ofItems d.items.toList = .ok layout ∧
        ∃ before p between p' after, layout.Clash before p between p' after ∧ p'.offset = o) ∧
    ∀ layout before p between p' after, Layout.ofItems d.items.toList = .ok layout →
      layout.Clash before p between p' after → ∀ done pool',
        ((before ++ p :: between).foldlM layout.assembleItem ⟨[], [], none⟩).run pool =
          .ok done pool' →
        d.assemble.run pool = .error (.conflictingFrames p'.offset) pool' :=
  ⟨fun hcount hshort _ _ h => mapStored_of_assemble hcount hshort h,
    fun _ _ h => clash_of_assemble h,
    fun _ _ _ _ _ _ hlayout hclash _ _ hdone => assemble_of_clash hlayout hclash hdone⟩

/-- A body with a frame behind each of its first two instructions. -/
def mappedDraft : Draft :=
  { Draft.empty 1 1 with
    items := #[.operation (.plain (.nullary .iconstM1)), .frame (.append [.object "A"]),
      .operation (.plain (.nullary .iconstM1)), .frame (.chop 1),
      .operation (.branch (.exit .returnVoid))] }

/-- A body with two frames in front of one instruction. -/
def clashingDraft : Draft :=
  { Draft.empty 0 0 with
    items := #[.frame .same, .frame .same, .operation (.branch (.exit .returnVoid))] }

/-- The layout of the first. -/
def mappedLayout : Layout :=
  ⟨[⟨0, .operation (.plain (.nullary .iconstM1)), false⟩,
    ⟨1, .frame (.append [.object "A"]), false⟩,
    ⟨1, .operation (.plain (.nullary .iconstM1)), false⟩, ⟨2, .frame (.chop 1), false⟩,
    ⟨2, .operation (.branch (.exit .returnVoid)), false⟩], ∅, 3⟩

/-- The pool with the class that a frame names. -/
def namingPool : ConstantPool := ⟨#[none, some (.utf8 "A"), some (.classRef 1)]⟩

theorem storeTypes_mapped (layout : Layout) :
    (layout.storeTypes (.append [.object "A"])).run .empty =
      .ok (.append [.object 2]) namingPool := by
  have hclass : (ConstantPool.classIndex "A").run .empty = .ok 2 namingPool :=
    ConstantPool.classIndex_run (by decide) (by decide) (by decide)
  refine PoolM.map_eq_ok.2 ⟨[.object 2], ?_, rfl⟩
  rw [List.mapM_cons]
  exact PoolM.bind_eq_ok.2 ⟨_, _, PoolM.map_eq_ok.2 ⟨2, hclass, rfl⟩, rfl⟩

theorem assemble_mapped : ∃ c pool, mappedDraft.assemble.run .empty = .ok c pool := by
  let frames : List StackMapFrame := [⟨1, .append [.object 2]⟩, ⟨0, .chop 1⟩]
  have hitems : (mappedLayout.items.foldlM mappedLayout.assembleItem ⟨[], [], none⟩).run .empty =
      .ok ⟨[[177], [2], [2]], frames.reverse, some 2⟩ namingPool := by
    refine PoolM.bind_eq_ok.2 ⟨⟨[[2]], [], none⟩, _, rfl, PoolM.bind_eq_ok.2
      ⟨⟨[[2]], [⟨1, .append [.object 2]⟩], some 1⟩, namingPool, ?_, rfl⟩⟩
    exact PoolM.bind_eq_ok.2 ⟨_, _, PoolM.map_eq_ok.2 ⟨_, storeTypes_mapped _, rfl⟩, rfl⟩
  obtain ⟨q, htable⟩ : ∃ q, (tableAttribute StackMapFrame.tableName StackMapFrame.writeTable
      frames).run namingPool = .ok [⟨3, StackMapFrame.writeTable frames⟩] q :=
    ⟨_, PoolM.bind_eq_ok.2 ⟨_, _, PoolM.bind_eq_ok.2
      ⟨3, _, ConstantPool.intern_run (by decide) (by decide), rfl⟩, rfl⟩⟩
  refine ⟨⟨1, 1, [2, 2, 177], [], [⟨3, StackMapFrame.writeTable frames⟩]⟩, q, ?_⟩
  exact assemble_iff.2 ⟨mappedLayout, _, [], _, [], [], [], [], [], _, _, _, _, _, _, rfl, hitems,
    rfl, htable, rfl, rfl, rfl, rfl, rfl, rfl⟩

theorem shortLists_mapped : mappedDraft.ShortLists := by
  intro locals stack h
  simp [mappedDraft] at h

/-- The class of a frame is read back from its name; and two frames without a change are refused. -/
theorem frames_of_assemble_mapped :
    (∃ c pool, mappedDraft.assemble.run .empty = .ok c pool ∧
      mappedDraft.MapStored mappedLayout c pool ∧
      mappedLayout.frames = [(1, .append [.object "A"]), (2, .chop 1)]) ∧
    clashingDraft.assemble.run .empty = .error (.conflictingFrames 0) .empty ∧
    ∃ layout, Layout.ofItems clashingDraft.items.toList = .ok layout ∧
      ∃ before p between p' after, layout.Clash before p between p' after ∧ p'.offset = 0 := by
  have hclash : Layout.Clash ⟨[⟨0, .frame .same, false⟩, ⟨0, .frame .same, false⟩,
      ⟨0, .operation (.branch (.exit .returnVoid)), false⟩], ∅, 1⟩ [] ⟨0, .frame .same, false⟩ []
      ⟨0, .frame .same, false⟩ [⟨0, .operation (.branch (.exit .returnVoid)), false⟩] :=
    ⟨rfl, ⟨_, rfl⟩, ⟨_, rfl⟩, by simp⟩
  have hrefused : clashingDraft.assemble.run .empty = .error (.conflictingFrames 0) .empty :=
    (frames_of_assemble clashingDraft .empty).2.2 _ _ _ _ _ _ rfl hclash
      ⟨[], [⟨0, .same⟩], some 0⟩ .empty rfl
  refine ⟨?_, hrefused, (frames_of_assemble clashingDraft .empty).2.1 0 .empty hrefused⟩
  obtain ⟨c, pool, hrun⟩ := assemble_mapped
  obtain ⟨layout, hlayout, hstored⟩ :=
    (frames_of_assemble mappedDraft .empty).1 (by decide) shortLists_mapped c pool hrun
  obtain rfl : mappedLayout = layout := Except.ok.inj hlayout
  exact ⟨c, pool, hrun, hstored, rfl⟩

end Draft

end FreshLocal
