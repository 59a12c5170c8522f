import FreshLocal.Draft
import FreshLocal.Stage

/-!
# Building a class

The builder is a sink at the end of the stages. It takes the events of a class in
their order, refuses those that are out of place, and has the bytes of the class
file in the end.

* `ClassBuilder.receive`: take an event.
* `ClassBuilder.finish`: the bytes.
-/

namespace FreshLocal

/-- The part of a class that has been sent so far. -/
structure ClassBuilder where
  /-- The class, from its start on. -/
  file : Option ClassFile
  /-- The method that is open, and its body, if that has started. -/
  method : Option (Method × Option Draft)
  /-- Was the end of the class sent? -/
  finished : Bool

namespace ClassBuilder

/-- Before the class starts. -/
def empty : ClassBuilder := ⟨none, none, false⟩

/-- The class of a declaration, with nothing in it. -/
def ofDeclaration (c : ClassDeclaration) : ClassFile :=
  { version := c.version, pool := c.pool, flags := c.flags, thisClass := c.thisClass
    superClass := c.superClass, interfaces := c.interfaces, fields := #[], methods := #[]
    attributes := #[] }

/-- Refuse an event, and keep everything as it is. -/
def refuse (b : ClassBuilder) (fault : EventFault) : ClassBuilder × Option Fault :=
  (b, some (.unexpectedEvent fault))

/-- Change the class, if there is one and it has not ended. -/
def onFile (change : ClassFile → ClassFile) : ClassBuilder → ClassBuilder × Option Fault
  | ⟨some file, method, false⟩ => (⟨some (change file), method, false⟩, none)
  | b => b.refuse .outsideClass

/-- The limits of a body open it. -/
def openBody (maxStack maxLocals : UInt16) : ClassBuilder → ClassBuilder × Option Fault
  | ⟨file, some (m, none), finished⟩ =>
    (⟨file, some (m, some (.empty maxStack maxLocals)), finished⟩, none)
  | b => b.refuse (if b.method.isSome then .secondBody else .codeOutsideMethod)

/-- Take an event of a body. -/
def receiveBody (event : BodyEvent) : ClassBuilder → ClassBuilder × Option Fault
  | ⟨file, some (m, some d), finished⟩ => (⟨file, some (m, some (d.push event)), finished⟩, none)
  | b => b.refuse .outsideBody

/-- A method with its stored body in front of its other attributes. -/
def complete (m : Method) : Option Draft → PoolM Method
  | none => pure m
  | some d => do
    let code ← d.assemble
    let a ← namedAttribute CodeAttribute.name code.write
    pure { m with attributes := a :: m.attributes }

/-- Close the method that is open. If its body cannot be stored the method is gone, but the
constants that were added for it stay. -/
def closeMethod : ClassBuilder → ClassBuilder × Option Fault
  | ⟨some file, some (m, body), false⟩ =>
    match (complete m body).run file.pool with
    | .ok m pool => (⟨some { file with pool, methods := file.methods.push m }, none, false⟩, none)
    | .error fault pool => (⟨some { file with pool }, none, false⟩, some fault)
  | ⟨file, some _, finished⟩ => refuse ⟨file, none, finished⟩ .outsideClass
  | b => b.refuse .methodEndOutsideMethod

/-- Open a method. -/
def openMethod (d : MethodDeclaration) : ClassBuilder → ClassBuilder × Option Fault
  | ⟨some file, none, false⟩ =>
    (⟨some file, some (⟨d.flags, d.nameIndex, d.descriptorIndex, d.attributes⟩, none), false⟩, none)
  | b@⟨some _, some _, false⟩ => b.refuse .nestedMethod
  | b => b.refuse .outsideClass

/-- End the class. -/
def close : ClassBuilder → ClassBuilder × Option Fault
  | ⟨some file, none, false⟩ => (⟨some file, none, true⟩, none)
  | b@⟨some _, some _, false⟩ => b.refuse .endInsideMethod
  | b => b.refuse .outsideClass

/-- Take an event of a class. -/
def receive : Sink ClassEvent ClassBuilder := fun b event =>
  match event with
  | .classStart c =>
    if b.file.isSome then b.refuse .secondClass
    else ({ b with file := some (ofDeclaration c) }, none)
  | .field f => b.onFile fun file => { file with fields := file.fields.push f }
  | .methodStart d => b.openMethod d
  | .body (.start maxStack maxLocals) => b.openBody maxStack maxLocals
  | .body e => b.receiveBody e
  | .methodEnd => b.closeMethod
  | .attribute a => b.onFile fun file => { file with attributes := file.attributes.push a }
  | .classEnd => b.close

/-- The bytes of the class, once it has ended. -/
def finish (b : ClassBuilder) : Except Fault Bytes :=
  match b.file, b.finished with
  | some file, true => .ok file.write
  | _, _ => .error (.unexpectedEvent .classUnfinished)

end ClassBuilder

end FreshLocal
