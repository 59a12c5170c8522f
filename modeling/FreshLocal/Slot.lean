import FreshLocal.Event

/-!
# Slots of local variables

A method keeps its local variables in numbered slots. When it is entered, the
receiver and the arguments stand in the first ones.

* `SlotRange.extend`: reserve slots that were not used before.
* `DeclaredMethod.first`: the first slot behind the arguments.
* `DeclaredMethod.implicit`: the types of the receiver and the arguments.
-/

namespace FreshLocal

/-- The slots in a row that were handed out: `width` of them, from `start` on. -/
structure SlotRange where
  start : Nat
  width : Nat
deriving DecidableEq

namespace SlotRange

/-- A range in which no slot was handed out. -/
def emptyAt (start : Nat) : SlotRange := ⟨start, 0⟩

/-- The next slot to be handed out. -/
def stop (r : SlotRange) : Nat := r.start + r.width

/-- Hand out some more slots, and give the first of them. They have to end at 65535 at the
latest. -/
def extend (r : SlotRange) (width : Nat) : Except Fault (UInt16 × SlotRange) :=
  if r.stop + width ≤ 65535 then .ok (UInt16.ofNat r.stop, { r with width := r.width + width })
  else .error (.localsOverflow (UInt32.ofNat (r.stop + width)))

end SlotRange

/-- A number of slots or a slot, if 16 bits can hold it. -/
def slot16 (n : Nat) : Except Fault UInt16 :=
  if n ≤ 65535 then .ok (UInt16.ofNat n) else .error (.localsOverflow (UInt32.ofNat n))

/-- The type that a stack map frame gives to a variable. Small integers are integers, an array
goes by its descriptor and any other object by the name of its class. -/
def FieldType.localType {π : Type} : FieldType → VerificationType String π
  | ⟨0, .primitive .float⟩ => .float
  | ⟨0, .primitive .long⟩ => .long
  | ⟨0, .primitive .double⟩ => .double
  | ⟨0, .primitive _⟩ => .integer
  | ⟨0, .object name⟩ => .object name.text
  | array => .object array.render

/-- What is known of a method when a variable is put into its body. -/
structure DeclaredMethod where
  flags : MethodFlags
  name : UnqualifiedName
  descriptor : MethodDescriptor
  /-- The class that declares the method. -/
  owner : BinaryName

namespace DeclaredMethod

/-- The method of a declaration in a class. -/
def ofDeclaration (d : MethodDeclaration) (owner : BinaryName) : DeclaredMethod :=
  ⟨d.flags, d.name, d.descriptor, owner⟩

/-- A method that is not static has a receiver. -/
def hasReceiver (m : DeclaredMethod) : Bool := !m.flags.isStatic

/-- The first slot that holds neither the receiver nor an argument. -/
def first (m : DeclaredMethod) : Nat := m.descriptor.parameterWidth m.hasReceiver

/-- The type of the receiver. In a constructor it is not initialized yet, but in that of the
root of the hierarchy, which has no other constructor to call. -/
def receiver (m : DeclaredMethod) : CodeType :=
  if m.name.isConstructor && !m.owner.isRoot then .uninitializedThis else .object m.owner.text

/-- The types of the receiver and the arguments, one entry for each. -/
def implicit (m : DeclaredMethod) : List CodeType :=
  (if m.hasReceiver then [m.receiver] else []) ++ m.descriptor.parameters.map FieldType.localType

end DeclaredMethod

end FreshLocal
