import FreshLocal.Proofs.BodyAssembly

/-!
# What a stored body is made of

The layout turns labels into offsets, and only the offsets are stored. So a body
is stored by what it says at the offsets of its layout, whatever the labels were
called: its operations become the code, and each of its tables an attribute that
lists the entries one by one.

**Argument.** Each step of the assembly looks a label up and writes its offset.
The step that writes the same entry with the offset in it does the same to the
pool. Nothing is asked about the length of tables, since nothing is read back.

* `Operation.encodeAt`, `Layout.code`: the bytes of operations at their offsets.
* `Body.storeFrames`, `Body.storeAttributes`: the attributes of a body.
* `CodeAttribute.Holds`: a stored body holds the parts of a body.
* `Draft.holds_of_assemble`: **a body that is assembled** is stored so.
* `Draft.disassemble_of_assemble`: and its code is read as its operations.
-/

namespace FreshLocal

variable {layout : Layout} {pool pool' : ConstantPool} {events : List BodyEvent} {d : Draft}

/-- The bytes of an operation at an offset, given the offsets of its targets. -/
def Operation.encodeAt (offset : Nat) (wide : Bool) : Operation Nat → Bytes
  | .plain i => i.encode
  | .branch b => (b.map (distanceTo offset)).encode offset wide

/-- The bytes of an item; only an operation has some. -/
def Layout.itemBytes (layout : Layout) (p : PlacedItem) : Bytes :=
  match p.item with
  | .operation op => (op.map layout.offsetD).encodeAt p.offset p.wide
  | _ => []

/-- The code of a layout. -/
def Layout.code (layout : Layout) : Bytes := layout.items.flatMap layout.itemBytes

namespace Body

/-- Frames behind one at the offset `before`, with their distances and the indices of their
classes. -/
def storeFrames : (before : Option Nat) → List (Nat × Frame String UInt16) →
    PoolM (List StackMapFrame)
  | _, [] => pure []
  | before, (offset, f) :: rest => do
    let stored ← f.mapM ConstantPool.classIndex pure
    let distance := (StackMapFrame.distance? before offset).getD 0
    (⟨UInt16.ofNat distance, stored⟩ :: ·) <$> storeFrames (some offset) rest

/-- The attributes of a body: its tables that are not empty, and the others. -/
def storeAttributes (b : Body) : PoolM (List Attribute) := do
  let stored ← storeFrames none b.frames
  let frames ← tableAttribute StackMapFrame.tableName StackMapFrame.writeTable stored
  let lines ← tableAttribute LineNumber.tableName LineNumber.writeTable b.lines
  let locals ← tableAttribute (VariableEntry.tableName false) VariableEntry.writeTable b.locals
  let genericLocals ←
    tableAttribute (VariableEntry.tableName true) VariableEntry.writeTable b.genericLocals
  let visible ← tableAttribute (AnnotatedType.tableName true) AnnotatedType.writeTable
    (b.annotations.filter (·.visible == true))
  let invisible ← tableAttribute (AnnotatedType.tableName false) AnnotatedType.writeTable
    (b.annotations.filter (·.visible == false))
  pure (frames ++ lines ++ locals ++ genericLocals ++ visible ++ invisible ++ b.attributes)

/-- **The steps of storing the attributes**: the frames, and one table after the other. -/
theorem storeAttributes_cases {b : Body} {attributes : List Attribute}
    (h : b.storeAttributes.run pool = .ok attributes pool') :
    ∃ stored frames lines locals generics visible invisible p₁ p₂ p₃ p₄ p₅ p₆,
      (storeFrames none b.frames).run pool = .ok stored p₁ ∧
      (tableAttribute StackMapFrame.tableName StackMapFrame.writeTable stored).run p₁ =
        .ok frames p₂ ∧
      (tableAttribute LineNumber.tableName LineNumber.writeTable b.lines).run p₂ = .ok lines p₃ ∧
      (tableAttribute (VariableEntry.tableName false) VariableEntry.writeTable b.locals).run p₃ =
        .ok locals p₄ ∧
      (tableAttribute (VariableEntry.tableName true) VariableEntry.writeTable
        b.genericLocals).run p₄ = .ok generics p₅ ∧
      (tableAttribute (AnnotatedType.tableName true) AnnotatedType.writeTable
        (b.annotations.filter (·.visible == true))).run p₅ = .ok visible p₆ ∧
      (tableAttribute (AnnotatedType.tableName false) AnnotatedType.writeTable
        (b.annotations.filter (·.visible == false))).run p₆ = .ok invisible pool' ∧
      attributes =
        frames ++ lines ++ locals ++ generics ++ visible ++ invisible ++ b.attributes := by
  obtain ⟨stored, p₁, hstored, h⟩ := PoolM.bind_eq_ok.1 h
  obtain ⟨frames, p₂, hframes, h⟩ := PoolM.bind_eq_ok.1 h
  obtain ⟨lines, p₃, hlines, h⟩ := PoolM.bind_eq_ok.1 h
  obtain ⟨locals, p₄, hlocals, h⟩ := PoolM.bind_eq_ok.1 h
  obtain ⟨generics, p₅, hgenerics, h⟩ := PoolM.bind_eq_ok.1 h
  obtain ⟨visible, p₆, hvisible, h⟩ := PoolM.bind_eq_ok.1 h
  obtain ⟨invisible, p₇, hinvisible, h⟩ := PoolM.bind_eq_ok.1 h
  obtain ⟨rfl, rfl⟩ := PoolM.pure_eq_ok.1 h
  exact ⟨stored, frames, lines, locals, generics, visible, invisible, p₁, p₂, p₃, p₄, p₅, p₆,
    hstored, hframes, hlines, hlocals, hgenerics, hvisible, hinvisible, rfl⟩

end Body

/-- **A stored body holds the parts of a body**, apart from its code; `pool` is the constant pool
before its attributes are stored, and `pool'` the one behind them. -/
structure CodeAttribute.Holds (c : CodeAttribute) (b : Body) (pool pool' : ConstantPool) :
    Prop where
  maxStack : c.maxStack = b.maxStack
  maxLocals : c.maxLocals = b.maxLocals
  handlers : c.handlers = b.handlers
  attributes : b.storeAttributes.run pool = .ok c.attributes pool'

/-! ## Frames -/

namespace PoolM

variable {α α' β : Type} {g : α → PoolM β} {g' : α' → PoolM β} {f : α → α'}

/-- Steps that do the same in a row do the same. -/
theorem mapM_map_eq_ok (hg : ∀ x p y q, (g x).run p = .ok y q → (g' (f x)).run p = .ok y q)
    {xs : List α} {ys : List β} {p q : ConstantPool} (h : (xs.mapM g).run p = .ok ys q) :
    ((xs.map f).mapM g').run p = .ok ys q := by
  induction xs generalizing p ys with
  | nil => exact h
  | cons x xs ih =>
    rw [List.mapM_cons] at h
    obtain ⟨y, p', hy, h⟩ := bind_eq_ok.1 h
    obtain ⟨ys', q', hys, h⟩ := bind_eq_ok.1 h
    obtain ⟨rfl, rfl⟩ := pure_eq_ok.1 h
    rw [List.map_cons, List.mapM_cons]
    exact bind_eq_ok.2 ⟨y, p', hg x p y p' hy, bind_eq_ok.2 ⟨ys', q', ih hys, rfl⟩⟩

end PoolM

namespace Layout

/-- A type is stored with the offset of its label. -/
theorem storeType_offsets (t : CodeType) (p : ConstantPool) (t' : StoredType) (q : ConstantPool)
    (h : (t.mapM ConstantPool.classIndex fun l => MonadExcept.ofExcept (layout.offset16 l)).run p =
      .ok t' q) :
    ((t.map id layout.offsetD16).mapM ConstantPool.classIndex pure).run p = .ok t' q := by
  cases t with
  | uninitialized l =>
    obtain ⟨o, ho, rfl⟩ := PoolM.map_eq_ok.1 h
    obtain ⟨hoffset, rfl⟩ := PoolM.ofExcept_eq_ok.1 ho
    obtain ⟨-, rfl, -⟩ := offset16_eq_ok hoffset
    rfl
  | _ => exact h

/-- The types of a frame are stored with the offsets of its labels. -/
theorem storeTypes_offsets {f : CodeFrame} {stored : Frame PoolIndex UInt16}
    (h : (layout.storeTypes f).run pool = .ok stored pool') :
    ((f.map id layout.offsetD16).mapM ConstantPool.classIndex pure).run pool =
      .ok stored pool' := by
  cases f with
  | same | chop count => exact h
  | sameOne t =>
    obtain ⟨t', ht, rfl⟩ := PoolM.map_eq_ok.1 h
    exact PoolM.map_eq_ok.2 ⟨t', storeType_offsets t _ _ _ ht, rfl⟩
  | append more =>
    obtain ⟨more', hmore, rfl⟩ := PoolM.map_eq_ok.1 h
    exact PoolM.map_eq_ok.2 ⟨more', PoolM.mapM_map_eq_ok storeType_offsets hmore, rfl⟩
  | full locals stack =>
    obtain ⟨g, p, stack', hg, hstack, rfl⟩ := PoolM.seq_eq_ok.1 h
    obtain ⟨locals', hlocals, rfl⟩ := PoolM.map_eq_ok.1 hg
    refine PoolM.seq_eq_ok.2 ⟨_, p, stack', ?_, PoolM.mapM_map_eq_ok storeType_offsets hstack, rfl⟩
    exact PoolM.map_eq_ok.2 ⟨locals', PoolM.mapM_map_eq_ok storeType_offsets hlocals, rfl⟩

/-- **A frame is stored** at its distance, with the offsets of its labels. -/
theorem storeFrame_offsets {distance : UInt16} {f : CodeFrame} {stored : StackMapFrame}
    (h : (layout.storeFrame distance f).run pool = .ok stored pool') :
    stored.distance = distance ∧
      ((f.map id layout.offsetD16).mapM ConstantPool.classIndex pure).run pool =
        .ok stored.frame pool' := by
  have types (h : ((⟨distance, ·⟩) <$> layout.storeTypes f).run pool = .ok stored pool') :
      stored.distance = distance ∧
        ((f.map id layout.offsetD16).mapM ConstantPool.classIndex pure).run pool =
          .ok stored.frame pool' := by
    obtain ⟨frame, hframe, rfl⟩ := PoolM.map_eq_ok.1 h
    exact ⟨rfl, storeTypes_offsets hframe⟩
  cases f with
  | same | sameOne t | full locals stack => exact types h
  | chop count =>
    simp only [storeFrame] at h
    split at h
    · obtain ⟨rfl, rfl⟩ := PoolM.pure_eq_ok.1 h
      exact ⟨rfl, rfl⟩
    · exact absurd h PoolM.throw_ne_ok
  | append more =>
    simp only [storeFrame] at h
    split at h
    · exact types h
    · exact absurd h PoolM.throw_ne_ok

/-! ## Items -/

/-- An operation is written with the offsets of its labels. -/
theorem encodeOperation_offsets {p : PlacedItem} {op : Operation Label} {bytes : Bytes}
    (hp : p.item = .operation op) (h : layout.encodeOperation p op = .ok bytes) :
    bytes = layout.itemBytes p := by
  rw [itemBytes, hp]
  cases op with
  | plain i => cases h; rfl
  | branch b =>
    obtain ⟨distances, hdistances, rfl⟩ := Except.map_eq_ok.1 h
    obtain ⟨-, rfl⟩ := Branch.mapM_ok hdistances fun l _ d hd => (storedDistance_eq_ok hd).1
    change _ = ((b.map layout.offsetD).map (distanceTo p.offset)).encode p.offset p.wide
    rw [Branch.map_map]

/-- **Items are stored** one after the other: the operations are the code, and the frames are
stored as those of a body. -/
theorem assembleItems_offsets {ps : List PlacedItem} {done done' : Assembled}
    (h : (ps.foldlM layout.assembleItem done).run pool = .ok done' pool') :
    done'.code.reverse.flatten = done.code.reverse.flatten ++ ps.flatMap layout.itemBytes ∧
      ∃ frames, done'.frames = frames.reverse ++ done.frames ∧
        (Body.storeFrames done.lastFrame ((ps.filterMap PlacedItem.frame?).map
          fun x => (x.1, x.2.map id layout.offsetD16))).run pool = .ok frames pool' := by
  -- over the items: an operation adds its bytes, and a frame is stored behind the last one
  induction ps generalizing done pool with
  | nil =>
    obtain ⟨rfl, rfl⟩ := PoolM.pure_eq_ok.1 h
    exact ⟨by simp, [], by simp, rfl⟩
  | cons p ps ih =>
    rw [List.foldlM_cons] at h
    obtain ⟨next, pool₁, hnext, hlater⟩ := PoolM.bind_eq_ok.1 h
    obtain ⟨hcode, frames, hframes, hstored⟩ := ih hlater
    rw [List.flatMap_cons]
    obtain ⟨l, hp, rfl, rfl⟩ | ⟨op, bs, hp, hencode, rfl, rfl⟩ |
      ⟨f, dist, stored, hp, hd, hd16, hf, rfl⟩ := assembleItem_cases hnext
    · have hnone : p.frame? = none := by rw [PlacedItem.frame?, hp]
      have hempty : layout.itemBytes p = [] := by rw [itemBytes, hp]
      rw [hempty, List.nil_append, List.filterMap_cons_none hnone]
      exact ⟨hcode, frames, hframes, hstored⟩
    · have hnone : p.frame? = none := by rw [PlacedItem.frame?, hp]
      rw [List.filterMap_cons_none hnone]
      refine ⟨?_, frames, hframes, hstored⟩
      rw [hcode, encodeOperation_offsets hp hencode, List.reverse_cons, List.flatten_append,
        List.flatten_singleton, List.append_assoc]
    · have hsome : p.frame? = some (p.offset, f) := by rw [PlacedItem.frame?, hp]
      have hempty : layout.itemBytes p = [] := by rw [itemBytes, hp]
      obtain ⟨hdistance, hframe⟩ := storeFrame_offsets hf
      rw [hempty, List.nil_append, List.filterMap_cons_some hsome, List.map_cons]
      refine ⟨hcode, stored :: frames, by simp [hframes], ?_⟩
      refine PoolM.bind_eq_ok.2 ⟨_, _, hframe, PoolM.map_eq_ok.2 ⟨_, hstored, ?_⟩⟩
      rw [hd, Option.getD_some, ← hdistance]

end Layout

/-! ## Bodies -/

namespace Draft

open BodyEvent

/-- **A body that is assembled** is stored by what it says at the offsets of its layout. -/
theorem holds_of_assemble {c : CodeAttribute} (hd : d.Holds events)
    (h : d.assemble.run pool = .ok c pool') :
    ∃ layout, Layout.ofItems (events.filterMap item?) = .ok layout ∧ c.code = layout.code ∧
      c.Holds (layout.body events d.maxStack d.maxLocals) pool pool' := by
  obtain ⟨layout, done, handlers, frames, lines, locals, genericLocals, visible, invisible, pool₁,
    pool₂, pool₃, pool₄, pool₅, pool₆, hlayout, hdone, hhandlers, hframes, hlines, hlocals,
    hgenerics, hvisible, hinvisible, rfl⟩ := assemble_iff.1 h
  rw [hd.items] at hlayout
  obtain ⟨hcode, stored, hstored, hframeList⟩ := Layout.assembleItems_offsets hdone
  rw [hstored, List.append_nil, List.reverse_reverse] at hframes
  -- each table is one of entries at the offsets of the layout
  obtain ⟨rfl, -⟩ := handlers_give hhandlers
  obtain ⟨-, hlines⟩ := lineTable_gives hlines
  obtain ⟨-, hlocals⟩ := variableTable_gives hlocals
  obtain ⟨-, hgenerics⟩ := variableTable_gives hgenerics
  obtain ⟨-, hvisible⟩ := annotationTable_gives hvisible
  obtain ⟨-, hinvisible⟩ := annotationTable_gives hinvisible
  rw [hd.lines] at hlines
  rw [hd.locals false] at hlocals
  rw [hd.locals true] at hgenerics
  rw [hd.annotations] at hvisible hinvisible
  have hfilter : ∀ visible, (layout.body events d.maxStack d.maxLocals).annotations.filter
      (·.visible == visible) = ((events.filterMap annotation?).filter
        (·.visible == visible)).map (·.map layout.offsetD16) :=
    layout.annotations_body events d.maxStack d.maxLocals
  refine ⟨layout, hlayout, hcode, rfl, rfl, by rw [hd.handlers]; rfl, ?_⟩
  refine PoolM.bind_eq_ok.2 ⟨_, _, hframeList, PoolM.bind_eq_ok.2 ⟨_, _, hframes, ?_⟩⟩
  refine PoolM.bind_eq_ok.2 ⟨_, _, hlines, PoolM.bind_eq_ok.2 ⟨_, _, hlocals, ?_⟩⟩
  refine PoolM.bind_eq_ok.2 ⟨_, _, hgenerics, PoolM.bind_eq_ok.2 ⟨visible, pool₆, ?_, ?_⟩⟩
  · rw [hfilter]; exact hvisible
  refine PoolM.bind_eq_ok.2 ⟨invisible, pool', ?_, PoolM.pure_eq_ok.2 ⟨?_, rfl⟩⟩
  · rw [hfilter]; exact hinvisible
  · rw [hd.attributes]; rfl

/-- **The code of a body that is assembled** is read as its operations, and no variable ends before
it starts. -/
theorem disassemble_of_assemble {P : ConstantPool} {c : CodeAttribute} (hd : d.Holds events)
    (hall : StorableAll P events) (h : d.assemble.run pool = .ok c pool')
    (hlayout : Layout.ofItems (events.filterMap item?) = .ok layout) :
    layout.Ordered events ∧ c.code.length = layout.length ∧
      disassemble c.code = .ok (layout.items.filterMap layout.operation?) := by
  obtain ⟨layout', done, _, _, _, _, _, _, _, _, _, _, _, _, _, hlayout', hdone, -, -, -, hlocals,
    hgenerics, -, -, rfl⟩ := assemble_iff.1 h
  obtain rfl := Except.ok.inj (hlayout'.symm.trans (hd.items ▸ hlayout))
  have hsound := Layout.ofItems_eq_ok hlayout
  obtain ⟨hordered, -⟩ := variableTable_gives hlocals
  obtain ⟨hordered', -⟩ := variableTable_gives hgenerics
  rw [hd.locals false] at hordered
  rw [hd.locals true] at hordered'
  obtain ⟨bytes, hcode, hend, htiles⟩ := Layout.assembleItems_code hsound.laid hsound.length
    (Nat.le_refl _) (hsound.encodable hall) hdone
  have hbytes : done.code.reverse.flatten = bytes := hcode
  have hlength : bytes.length = layout'.length := by omega
  refine ⟨fun g v hv => ?_, by rw [hbytes]; exact hlength, ?_⟩
  · cases g with
    | false => exact (hordered v (mem_locals.2 hv)).2.2
    | true => exact (hordered' v (mem_locals.2 hv)).2.2
  · rw [hbytes]
    exact disassemble_tiles hsound hall hlength htiles

end Draft

end FreshLocal
