import FreshLocal.Body
import FreshLocal.Stage

/-!
# A class file as events

Reading a class yields a **script**: the events of the class, and the fault that
ends them, if there is one. The constant pool of the class comes with its
declaration, and every index in a later event is an index of that pool.

* `ClassFile.script`: the script of a class.
* `Script.deliver`: send a script to a sink. A fault that has to do with a body
  is put in the name of the method, whether the reading or the sink raised it.
-/

namespace FreshLocal

/-- Some events, and the fault behind them, if there is one. -/
structure Script where
  events : List ClassEvent
  fault : Option Fault

namespace Script

/-- No events but a fault. -/
def failed (fault : Fault) : Script := ⟨[], some fault⟩

/-- Scripts in a row, up to the first with a fault. -/
def concat (scripts : List Script) : Script :=
  match scripts.span (·.fault.isNone) with
  | (done, []) => ⟨done.flatMap events, none⟩
  | (done, last :: _) => ⟨done.flatMap events ++ last.events, last.fault⟩

/-- The title of the method that is open behind an event, given the one before. -/
def openTitle (title : Option String) : ClassEvent → Option String
  | .methodStart d => some d.title
  | _ => title

/-- The fault for an event that was refused, given the title of the method that is open. -/
def refusal (title : Option String) (event : ClassEvent) (fault : Fault) : Fault :=
  match event, title with
  | .body _, some t => fault.within t
  | _, _ => fault

/-- Send events to a sink; `title` is that of the method that is open. -/
def deliverFrom {τ : Type} (sink : Sink ClassEvent τ) (end_ : Option Fault) :
    (title : Option String) → List ClassEvent → τ → τ × Option Fault
  | _, [], t => (t, end_)
  | title, e :: rest, t =>
    match sink t e with
    | (t, none) => deliverFrom sink end_ (openTitle title e) rest t
    | (t, some fault) => (t, some (refusal title e fault))

/-- Send a script to a sink. -/
def deliver {τ : Type} (sink : Sink ClassEvent τ) (s : Script) (t : τ) : τ × Option Fault :=
  deliverFrom sink s.fault none s.events t

end Script

namespace Method

/-- What `splitCode` does behind the attributes of `done`, which are in reverse. -/
def splitCodeOnto (pool : ConstantPool) : List Attribute → (done : List Attribute) →
    Except DecodeFault (Option Attribute × List Attribute)
  | [], done => .ok (none, done.reverse)
  | a :: rest, done => do
    if (← pool.utf8 a.name) = CodeAttribute.name then .ok (some a, done.reverse ++ rest)
    else splitCodeOnto pool rest (a :: done)

/-- The first attribute that holds a body, and the others. -/
def splitCode (pool : ConstantPool) (attributes : List Attribute) :
    Except DecodeFault (Option Attribute × List Attribute) :=
  splitCodeOnto pool attributes []

/-- The declaration of a method, and the attribute that holds its body. -/
def split (pool : ConstantPool) (m : Method) :
    Except Fault (MethodDeclaration × Option Attribute) := do
  let name ← (pool.utf8 m.name).mapError .decode
  let descriptor ← (pool.utf8 m.descriptor).mapError .decode
  let (code, attributes) ← (splitCode pool m.attributes).mapError .decode
  let name ← (UnqualifiedName.ofText name).mapError (.malformedDescriptor ·.message)
  let parsed ← (MethodDescriptor.parse descriptor).mapError fun _ => .malformedDescriptor descriptor
  pure ({
    flags := m.flags, name, nameIndex := m.name, descriptor := parsed
    descriptorIndex := m.descriptor, attributes }, code)

/-- The script of a body, in the name of its method. -/
def bodyScript (pool : ConstantPool) (title : String) (code : Attribute) : Script :=
  match Body.read pool code.body with
  | .error fault => .failed (.inMethod title (.decode fault))
  | .ok b =>
    let (events, fault) := b.events
    ⟨events.map .body, fault.map fun f => .inMethod title (.decode f)⟩

/-- The script of a method. -/
def script (pool : ConstantPool) (m : Method) : Script :=
  match split pool m with
  | .error fault => .failed fault
  | .ok (d, none) => ⟨[.methodStart d, .methodEnd], none⟩
  | .ok (d, some code) =>
    .concat [⟨[.methodStart d], none⟩, bodyScript pool d.title code, ⟨[.methodEnd], none⟩]

end Method

namespace ClassFile

/-- The name of the class. -/
def className (c : ClassFile) : Except DecodeFault String := c.pool.className c.thisClass

/-- The declaration of the class. -/
def declaration (c : ClassFile) : Except Fault ClassDeclaration := do
  let name ← c.className.mapError .decode
  let name ← (BinaryName.ofText name).mapError (.malformedDescriptor ·.message)
  pure {
    version := c.version, pool := c.pool, flags := c.flags, thisClass := c.thisClass, name
    superClass := c.superClass, interfaces := c.interfaces }

/-- The script of a class. -/
def script (c : ClassFile) : Script :=
  match c.declaration with
  | .error fault => .failed fault
  | .ok d => .concat
      (⟨.classStart d :: c.fields.toList.map .field, none⟩ ::
        c.methods.toList.map (Method.script c.pool) ++
        [⟨c.attributes.toList.map .attribute ++ [.classEnd], none⟩])

end ClassFile

end FreshLocal
