import FreshLocal.Layout

/-!
# Drafts of method bodies

A draft collects the events of a body. When the body is complete, its items are
laid out, labels become offsets, and the body is stored as an attribute; the
classes of its frames and the names of its tables are added to the pool.

* `Draft.push`: take an event.
* `Draft.assemble`: the stored body.
-/

namespace FreshLocal

/-- The part of a body that has been sent so far. -/
structure Draft where
  maxStack : UInt16
  maxLocals : UInt16
  items : Array BodyItem
  handlers : Array (Handler Label)
  lines : Array (UInt16 × Label)
  locals : Array LocalVariable
  genericLocals : Array LocalVariable
  annotations : Array (AnnotatedType Label)
  attributes : Array Attribute

namespace Draft

/-- A body of which only the limits are known. -/
def empty (maxStack maxLocals : UInt16) : Draft :=
  ⟨maxStack, maxLocals, #[], #[], #[], #[], #[], #[], #[]⟩

/-- Take an event of the body. -/
def push (d : Draft) : BodyEvent → Draft
  | .start _ _ => d
  | .label l => { d with items := d.items.push (.label l) }
  | .lineNumber line start => { d with lines := d.lines.push (line, start) }
  | .operation op => { d with items := d.items.push (.operation op) }
  | .frame f => { d with items := d.items.push (.frame f) }
  | .handler h => { d with handlers := d.handlers.push h }
  | .localVariable false v => { d with locals := d.locals.push v }
  | .localVariable true v => { d with genericLocals := d.genericLocals.push v }
  | .annotatedType a => { d with annotations := d.annotations.push a }
  | .attribute a => { d with attributes := d.attributes.push a }
  | .limits maxStack maxLocals => { d with maxStack, maxLocals }

end Draft

/-- The items of a body that were stored so far, the last one in front. -/
structure Assembled where
  code : List Bytes
  frames : List StackMapFrame
  /-- The offset of the last frame. -/
  lastFrame : Option Nat

namespace Layout

/-- The distance of a target in the form that the branch has. -/
def storedDistance (layout : Layout) (p : PlacedItem) (b : Branch Label) (target : Label) :
    Except Fault Int32 := do
  let d ← layout.distance p.offset target
  if p.wide || b.isSwitch || isNear d then pure (Int32.ofInt d)
  else throw (.jumpTooFar p.offset (← layout.offset target))

/-- The bytes of a branch. -/
def encodeBranch (layout : Layout) (p : PlacedItem) (b : Branch Label) : Except Fault Bytes :=
  Branch.encode p.offset p.wide <$> b.mapM (layout.storedDistance p b)

/-- A frame with the indices of its classes and the offsets of its labels. -/
def storeTypes (layout : Layout) (f : CodeFrame) : PoolM (Frame PoolIndex UInt16) :=
  f.mapM ConstantPool.classIndex fun l => MonadExcept.ofExcept (layout.offset16 l)

/-- A frame at a distance from the one before. One that removes or adds locals does so with one to
three of them. -/
def storeFrame (layout : Layout) (distance : UInt16) (f : CodeFrame) : PoolM StackMapFrame :=
  match f with
  | .chop count =>
    if 1 ≤ count ∧ count ≤ 3 then pure ⟨distance, .chop count⟩
    else throw (.unexpectedEvent .chopSize)
  | .append more =>
    if 1 ≤ more.length ∧ more.length ≤ 3 then
      (⟨distance, ·⟩) <$> layout.storeTypes f
    else throw (.unexpectedEvent .appendSize)
  | f => (⟨distance, ·⟩) <$> layout.storeTypes f

/-- Store an item behind those stored before. -/
def assembleItem (layout : Layout) (done : Assembled) (p : PlacedItem) : PoolM Assembled :=
  match p.item with
  | .label _ => pure done
  | .operation (.plain i) => pure { done with code := i.encode :: done.code }
  | .operation (.branch b) => do
    let bytes ← MonadExcept.ofExcept (layout.encodeBranch p b)
    pure { done with code := bytes :: done.code }
  | .frame f =>
    match StackMapFrame.distance? done.lastFrame p.offset with
    | none => throw (.conflictingFrames p.offset)
    | some d =>
      if d ≤ 65535 then do
        let stored ← layout.storeFrame (UInt16.ofNat d) f
        pure { done with frames := stored :: done.frames, lastFrame := some p.offset }
      else throw (.codeTooLong p.offset)

/-- A local variable with the offsets of its range, which may not end before it starts. -/
def storeVariable (layout : Layout) (v : LocalVariable) : Except Fault VariableEntry := do
  let start ← layout.offset16 v.start
  let stop ← layout.offset16 v.stop
  if start ≤ stop then pure ⟨start, stop - start, v.name, v.type, v.slot⟩
  else throw (.unexpectedEvent .variableEndsBeforeStart)

end Layout

/-- An attribute with the given name, which is added to the pool once its body is known. -/
def namedAttribute (name : String) (body : Bytes) : PoolM Attribute := do
  let index ← ConstantPool.textIndex name
  pure ⟨index, body⟩

/-- The attribute for a table, unless the table is empty. -/
def tableAttribute {α : Type} (name : String) (write : List α → Bytes) (entries : List α) :
    PoolM (List Attribute) :=
  if entries.isEmpty then pure []
  else do
    let a ← namedAttribute name (write entries)
    pure [a]

namespace Draft

/-- The table of the lines. -/
def lineTable (d : Draft) (layout : Layout) : PoolM (List Attribute) := do
  let lines ← MonadExcept.ofExcept <| d.lines.toList.mapM fun (line, start) =>
    (⟨·, line⟩) <$> layout.offset16 start
  tableAttribute LineNumber.tableName LineNumber.writeTable lines

/-- The table of the variables, with their generic types or without. -/
def variableTable (d : Draft) (layout : Layout) (isGeneric : Bool) : PoolM (List Attribute) := do
  let locals := if isGeneric then d.genericLocals else d.locals
  let entries ← MonadExcept.ofExcept (locals.toList.mapM layout.storeVariable)
  tableAttribute (VariableEntry.tableName isGeneric) VariableEntry.writeTable entries

/-- The table of the annotations that are visible, or of the others. -/
def annotationTable (d : Draft) (layout : Layout) (visible : Bool) : PoolM (List Attribute) := do
  let annotations := d.annotations.toList.filter (·.visible == visible)
  let stored ← MonadExcept.ofExcept (annotations.mapM (·.mapM layout.offset16))
  tableAttribute (AnnotatedType.tableName visible) AnnotatedType.writeTable stored

/-- The stored body. -/
def assemble (d : Draft) : PoolM CodeAttribute := do
  let layout ← MonadExcept.ofExcept (Layout.ofItems d.items.toList)
  let done ← layout.items.foldlM layout.assembleItem ⟨[], [], none⟩
  let handlers ← MonadExcept.ofExcept (d.handlers.toList.mapM (·.mapM layout.offset16))
  let frames ← tableAttribute StackMapFrame.tableName StackMapFrame.writeTable done.frames.reverse
  let lines ← d.lineTable layout
  let locals ← d.variableTable layout false
  let genericLocals ← d.variableTable layout true
  let visible ← d.annotationTable layout true
  let invisible ← d.annotationTable layout false
  pure {
    maxStack := d.maxStack, maxLocals := d.maxLocals, code := done.code.reverse.flatten, handlers
    attributes := frames ++ lines ++ locals ++ genericLocals ++ visible ++ invisible ++
      d.attributes.toList }

end Draft

end FreshLocal
