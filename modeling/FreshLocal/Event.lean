import FreshLocal.CodeAttribute
import FreshLocal.Descriptor.Parser
import FreshLocal.Instruction
import FreshLocal.AnnotatedType

/-!
# Events

A class is sent from one stage of the work to the next as a stream of events:
its declaration, its fields, its methods, its attributes and an end. The body of
a method is a stream of its own between `ClassEvent.methodStart` and
`ClassEvent.methodEnd`. Positions inside a body are labels; the event
`BodyEvent.label` says that a label stands for the place of the next operation,
and a frame belongs to the next operation too.

* `BodyEvent`, `ClassEvent`: the events.
* `ClassDeclaration.create`, `MethodDeclaration.create`: the declarations of a new class.
-/

namespace FreshLocal

/-- A type of a stack map frame inside the stream. -/
abbrev CodeType := VerificationType String Label

/-- A stack map frame inside the stream. -/
abbrev CodeFrame := Frame String Label

/-- The name and the type of a local variable over a range of the code. -/
structure LocalVariable where
  name : PoolIndex
  /-- A descriptor, or a signature in the table of generic types. -/
  type : PoolIndex
  start : Label
  /-- The position behind the last one of the range. -/
  stop : Label
  slot : UInt16
deriving DecidableEq

/-- A part of the body of a method. -/
inductive BodyEvent
  /-- The limits that the body declares. -/
  | start (maxStack maxLocals : UInt16)
  | label (l : Label)
  | lineNumber (line : UInt16) (start : Label)
  | operation (op : Operation Label)
  | frame (f : CodeFrame)
  | handler (h : Handler Label)
  | localVariable (isGeneric : Bool) (v : LocalVariable)
  | annotatedType (a : AnnotatedType Label)
  | attribute (a : Attribute)
  /-- The limits that the body has in the end. -/
  | limits (maxStack maxLocals : UInt16)
deriving DecidableEq

/-- What a class file holds before its fields, and the name of the class. -/
structure ClassDeclaration where
  version : Version
  pool : ConstantPool
  flags : ClassFlags
  thisClass : PoolIndex
  name : BinaryName
  superClass : PoolIndex
  interfaces : List PoolIndex
deriving DecidableEq

/-- The flags of a public class with the present meaning of calls to its superclass. -/
def ClassFlags.publicSuper : ClassFlags := ⟨0x0021, by decide⟩

/-- A new public class that declares nothing. -/
def ClassDeclaration.create (name superName : BinaryName) : Except Fault ClassDeclaration :=
  let step : PoolM (PoolIndex × PoolIndex) := do
    let thisClass ← ConstantPool.classIndex name.text
    let superClass ← ConstantPool.classIndex superName.text
    pure (thisClass, superClass)
  match step.run .empty with
  | .error fault _ => .error fault
  | .ok (thisClass, superClass) pool => .ok {
      version := .java8, pool, flags := .publicSuper, thisClass, name, superClass
      interfaces := [] }

/-- A method without its body. The attributes do not include the one for the body. -/
structure MethodDeclaration where
  flags : MethodFlags
  name : UnqualifiedName
  nameIndex : PoolIndex
  descriptor : MethodDescriptor
  descriptorIndex : PoolIndex
  attributes : List Attribute
deriving DecidableEq

namespace MethodDeclaration

/-- The name of a method and its descriptor, as shown in messages. -/
def title (d : MethodDeclaration) : String := d.name.text ++ d.descriptor.render

/-- A new method; its name and its descriptor are added to the pool. -/
def create (flags : MethodFlags) (name : UnqualifiedName) (descriptor : String) :
    PoolM MethodDeclaration := do
  match MethodDescriptor.parse descriptor with
  | .error _ => throw (.malformedDescriptor descriptor)
  | .ok parsed =>
    let nameIndex ← ConstantPool.textIndex name.text
    let descriptorIndex ← ConstantPool.textIndex descriptor
    pure { flags, name, nameIndex, descriptor := parsed, descriptorIndex, attributes := [] }

end MethodDeclaration

/-- A part of a class. -/
inductive ClassEvent
  | classStart (c : ClassDeclaration)
  | field (f : Field)
  | methodStart (d : MethodDeclaration)
  | body (e : BodyEvent)
  | methodEnd
  | attribute (a : Attribute)
  | classEnd
deriving DecidableEq

end FreshLocal
