import FreshLocal.Event
import FreshLocal.Instruction.Decoding
import Std.Data.HashMap

/-!
# The body of a method as events

A stored body gives positions by offsets. To send it as events, every offset
that something refers to gets a label, in ascending order from the label 0 on;
it has to be the start of an instruction or the end of the code.

* `CodePart.read`: an attribute of a body.
* `Body.read`: a body with everything that belongs to it.
* `Body.events`: the events of a body. A frame that stands before no instruction
  is a fault, which shows only behind the events of the instructions.
-/

namespace FreshLocal

/-- What an attribute of a body holds, with the offsets of frames worked out. -/
inductive CodePart
  | frames (frames : List (Nat × Frame String UInt16))
  | lines (lines : List LineNumber)
  | locals (isGeneric : Bool) (entries : List VariableEntry)
  | annotations (annotations : List (AnnotatedType UInt16))
  | other (a : Attribute)

namespace CodePart

/-- Frames with the names of their classes. -/
def resolveFrames (pool : ConstantPool) (frames : List StackMapFrame) :
    Except DecodeFault (List (Nat × Frame String UInt16)) :=
  (StackMapFrame.withOffsets (frames.map fun f => (f.distance, f.frame))).mapM
    fun (offset, f) => (offset, ·) <$> f.mapM pool.className pure

/-- The content of an attribute of a body, by the name of the attribute. -/
def read (pool : ConstantPool) (a : Attribute) : Except DecodeFault CodePart := do
  let name ← pool.utf8 a.name
  if name = StackMapFrame.tableName then
    frames <$> resolveFrames pool (← StackMapFrame.readTable a.body)
  else if name = LineNumber.tableName then lines <$> LineNumber.readTable a.body
  else if name = VariableEntry.tableName false then
    locals false <$> VariableEntry.readTable false a.body
  else if name = VariableEntry.tableName true then
    locals true <$> VariableEntry.readTable true a.body
  else if name = AnnotatedType.tableName true then
    annotations <$> AnnotatedType.readTable true a.body
  else if name = AnnotatedType.tableName false then
    annotations <$> AnnotatedType.readTable false a.body
  else pure (other a)

/-- The frames of a part that lists frames. -/
def frames? : CodePart → List (Nat × Frame String UInt16)
  | frames fs => fs
  | _ => []

/-- The lines of a part that lists lines. -/
def lines? : CodePart → List LineNumber
  | lines ls => ls
  | _ => []

/-- The variables of a part that lists them with their generic types, or without. -/
def locals? (generic : Bool) : CodePart → List VariableEntry
  | locals isGeneric vs => if isGeneric = generic then vs else []
  | _ => []

/-- The annotations of a part that lists annotations. -/
def annotations? : CodePart → List (AnnotatedType UInt16)
  | annotations found => found
  | _ => []

/-- The attribute of a part that is none of the tables. -/
def other? : CodePart → List Attribute
  | other a => [a]
  | _ => []

end CodePart

/-- The body of a method, with positions given by offsets. -/
structure Body where
  maxStack : UInt16
  maxLocals : UInt16
  /-- The number of bytes of the code. -/
  length : Nat
  operations : List (Nat × Operation Nat)
  handlers : List (Handler UInt16)
  frames : List (Nat × Frame String UInt16)
  lines : List LineNumber
  locals : List VariableEntry
  genericLocals : List VariableEntry
  annotations : List (AnnotatedType UInt16)
  attributes : List Attribute

namespace Body

/-- A stored body with the content of its attributes. -/
def ofAttribute (pool : ConstantPool) (c : CodeAttribute) : Except DecodeFault Body := do
  let operations ← disassemble c.code
  let parts ← c.attributes.mapM (CodePart.read pool)
  pure {
    maxStack := c.maxStack, maxLocals := c.maxLocals, length := c.code.length
    operations, handlers := c.handlers
    frames := parts.flatMap CodePart.frames?
    lines := parts.flatMap CodePart.lines?
    locals := parts.flatMap (CodePart.locals? false)
    genericLocals := parts.flatMap (CodePart.locals? true)
    annotations := parts.flatMap CodePart.annotations?
    attributes := parts.flatMap CodePart.other? }

/-- The offsets that something in the body refers to. -/
def references (b : Body) : List Nat :=
  b.operations.flatMap (·.2.targets) ++
    (b.handlers.flatMap Handler.positions).map UInt16.toNat ++
    b.frames.flatMap (fun (offset, f) => offset :: f.positions.map UInt16.toNat) ++
    b.lines.map (·.start.toNat) ++
    (b.locals ++ b.genericLocals).flatMap
      (fun v => [v.start.toNat, v.start.toNat + v.length.toNat]) ++
    (b.annotations.flatMap (·.target.positions)).map UInt16.toNat

/-- The offsets that something refers to, in ascending order and each of them once. -/
def labelled (b : Body) : List Nat := (b.references.mergeSort (· ≤ ·)).eraseReps

/-- The body in the attribute that holds it. Each offset that something refers to is the start of
an instruction or the end of the code. -/
def read (pool : ConstantPool) (stored : Bytes) : Except DecodeFault Body := do
  let b ← ofAttribute pool (← CodeAttribute.read stored)
  let starts := startOffsets b.operations
  match b.labelled.find? (fun o => o != b.length && !hasStart starts o) with
  | some offset => throw (.invalidCodeOffset offset)
  | none => pure b

/-- The label of each offset that has one. -/
def labels (b : Body) : Std.HashMap Nat Label :=
  Std.HashMap.ofList (b.labelled.zipIdx.map fun (offset, id) => (offset, ⟨id⟩))

/-- The lines that begin at each offset, in the order of the tables. -/
def linesAt (lines : List LineNumber) : Std.HashMap Nat (List UInt16) :=
  lines.foldr (fun l table => table.insert l.start.toNat (l.line :: table.getD l.start.toNat [])) ∅

/-- What `attachFrames` does behind the operations of `done`, which are in reverse. -/
def attachFramesOnto {α β : Type} : List (Nat × α) → (frames : List (Nat × β)) →
    (done : List (Nat × α × List β)) → List (Nat × α × List β) × List (Nat × β)
  | [], frames, done => (done.reverse, frames)
  | (offset, op) :: rest, frames, done =>
    let (here, later) := frames.span (·.1 = offset)
    attachFramesOnto rest later ((offset, op, here.map Prod.snd) :: done)

/-- Give each operation the frames at its offset, in order, and say which frames are left. -/
def attachFrames {α β : Type} (operations : List (Nat × α)) (frames : List (Nat × β)) :
    List (Nat × α × List β) × List (Nat × β) :=
  attachFramesOnto operations frames []

section Events

variable (label : Nat → Label)

/-- A variable over a range between labels. -/
def localVariable (v : VariableEntry) : LocalVariable :=
  ⟨v.name, v.type, label v.start.toNat, label (v.start.toNat + v.length.toNat), v.slot⟩

/-- The events of one operation: its label, its lines, its frames, and the operation. -/
def operationEvents (labels : Std.HashMap Nat Label) (lines : Std.HashMap Nat (List UInt16))
    (at_ : Nat × Operation Nat × List (Frame String UInt16)) : List BodyEvent :=
  let (offset, op, frames) := at_
  (labels[offset]?.toList.map BodyEvent.label) ++
    (lines.getD offset []).map (BodyEvent.lineNumber · (label offset)) ++
    frames.map (fun f => .frame (Id.run (f.mapM pure fun o => pure (label o.toNat)))) ++
    [.operation (Id.run (op.mapM fun o => pure (label o)))]

/-- The events before the operations. -/
def firstEvents (b : Body) : List BodyEvent :=
  .start b.maxStack b.maxLocals ::
    b.handlers.map fun h => .handler (Id.run (h.mapM fun o => pure (label o.toNat)))

/-- The events behind the operations. -/
def lastEvents (b : Body) (labels : Std.HashMap Nat Label) : List BodyEvent :=
  (labels[b.length]?.toList.map BodyEvent.label) ++
    b.locals.map (fun v => .localVariable false (localVariable label v)) ++
    b.genericLocals.map (fun v => .localVariable true (localVariable label v)) ++
    b.annotations.map
      (fun a => .annotatedType (Id.run (a.mapM fun o => pure (label o.toNat)))) ++
    b.attributes.map BodyEvent.attribute ++ [.limits b.maxStack b.maxLocals]

end Events

/-- The events of a body, and the fault that ends them, if there is one. -/
def events (b : Body) : List BodyEvent × Option DecodeFault :=
  let labels := b.labels
  let label := fun o => labels.getD o ⟨0⟩
  let lines := linesAt b.lines
  let (attached, left) := attachFrames b.operations b.frames
  let before := firstEvents label b ++ attached.flatMap (operationEvents label labels lines)
  match left with
  | (offset, _) :: _ => (before, some (.invalidCodeOffset offset))
  | [] => (before ++ lastEvents label b labels, none)

end Body

end FreshLocal
