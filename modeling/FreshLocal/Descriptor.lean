import FreshLocal.Name

/-!
# Descriptors

A descriptor is the text form of a type. A **field type** is an element type, a
primitive or a class, under some number of array dimensions; a **method
descriptor** lists the types of the parameters and the type of the result.

* `FieldType.render`, `MethodDescriptor.render`: the text of a type.
* `FieldType.width`: how many local variable slots a value takes.
* `MethodDescriptor.parameterWidth`: how many slots the arguments take.
-/

namespace FreshLocal

/-- The primitive types. -/
inductive BaseType
  | byte | char | double | float | int | long | short | boolean
deriving DecidableEq

namespace BaseType

/-- Values of type `long` and `double` take two slots. -/
def width : BaseType → Nat
  | double | long => 2
  | _ => 1

/-- The letter that stands for the type in a descriptor. -/
def letter : BaseType → Char
  | byte => 'B'
  | char => 'C'
  | double => 'D'
  | float => 'F'
  | int => 'I'
  | long => 'J'
  | short => 'S'
  | boolean => 'Z'

/-- The type that a letter stands for. -/
def ofLetter? : Char → Option BaseType
  | 'B' => some byte
  | 'C' => some char
  | 'D' => some double
  | 'F' => some float
  | 'I' => some int
  | 'J' => some long
  | 'S' => some short
  | 'Z' => some boolean
  | _ => none

/-- The code of the type in the instruction that makes an array of it. -/
def arrayCode : BaseType → UInt8
  | boolean => 4
  | char => 5
  | float => 6
  | double => 7
  | byte => 8
  | short => 9
  | int => 10
  | long => 11

/-- The type with a given code in the instruction that makes an array. -/
def ofArrayCode? : UInt8 → Option BaseType
  | 4 => some boolean
  | 5 => some char
  | 6 => some float
  | 7 => some double
  | 8 => some byte
  | 9 => some short
  | 10 => some int
  | 11 => some long
  | _ => none

end BaseType

/-- A type that is not an array. -/
inductive ElementType
  | primitive (type : BaseType)
  | object (name : BinaryName)
deriving DecidableEq

/-- The text of a class type as a list of characters. -/
def BinaryName.chars (name : BinaryName) : List Char := 'L' :: name.text.toList ++ [';']

/-- The text of an element type as a list of characters. -/
def ElementType.chars : ElementType → List Char
  | primitive type => [type.letter]
  | object name => name.chars

/-- The type of a field, a parameter or a local variable: an element type under `dimensions`
array dimensions. -/
structure FieldType where
  dimensions : Nat
  element : ElementType
deriving DecidableEq

namespace FieldType

/-- A primitive type. -/
def ofBase (type : BaseType) : FieldType := ⟨0, .primitive type⟩

/-- A class type. -/
def object (name : BinaryName) : FieldType := ⟨0, .object name⟩

/-- The text of the type as a list of characters: a bracket for each dimension, then the
element. -/
def chars (t : FieldType) : List Char := List.replicate t.dimensions '[' ++ t.element.chars

/-- The text of the type. -/
def render (t : FieldType) : String := String.ofList t.chars

/-- How many slots a value of the type takes; references take one. -/
def width : FieldType → Nat
  | ⟨0, .primitive type⟩ => type.width
  | _ => 1

end FieldType

/-- The parameters and the result of a method; there is no result type for `void`. -/
structure MethodDescriptor where
  parameters : List FieldType
  result : Option FieldType
deriving DecidableEq

namespace MethodDescriptor

/-- The text of the descriptor as a list of characters. -/
def chars (d : MethodDescriptor) : List Char :=
  '(' :: d.parameters.flatMap FieldType.chars ++ ')' ::
    match d.result with
    | none => ['V']
    | some t => t.chars

/-- The text of the descriptor. -/
def render (d : MethodDescriptor) : String := String.ofList d.chars

/-- How many slots the arguments take, and the receiver if there is one. -/
def parameterWidth (d : MethodDescriptor) (hasReceiver : Bool) : Nat :=
  (if hasReceiver then 1 else 0) + d.parameters.foldr (fun t slots => t.width + slots) 0

end MethodDescriptor

end FreshLocal
