/-!
# Names

A method or field has an **unqualified** name, which is not empty and holds none
of `.`, `;`, `[` and `/`. A class has a **binary** name, such as
`java/lang/Object`: one or more unqualified names with slashes between them.

* `UnqualifiedName`, `BinaryName`: a text with the proof that it is such a name.
* `NameFault`: why a text is not a name.
-/

namespace FreshLocal

/-- Why a text is not a name. -/
inductive NameFault
  | illegalCharacter (text : String)
  | emptyUnqualified
  | emptyBinary
deriving DecidableEq

/-- The message shown for a text that is not a name. -/
def NameFault.message : NameFault → String
  | illegalCharacter text => s!"Unqualified name '{text}' contains an illegal character"
  | emptyUnqualified => "Unqualified name is empty"
  | emptyBinary => "Binary name is empty"

namespace UnqualifiedName

/-- The characters that no unqualified name may hold. -/
def isIllegal (c : Char) : Bool := c = '.' || c = ';' || c = '[' || c = '/'

/-- What keeps some characters from being an unqualified name. -/
def fault? (chars : List Char) : Option NameFault :=
  if chars.any isIllegal then some (.illegalCharacter (String.ofList chars))
  else if chars.isEmpty then some .emptyUnqualified
  else none

end UnqualifiedName

/-- The name of a method or a field. -/
structure UnqualifiedName where
  text : String
  valid : UnqualifiedName.fault? text.toList = none
deriving DecidableEq

namespace UnqualifiedName

/-- A text as an unqualified name. -/
def ofText (text : String) : Except NameFault UnqualifiedName :=
  match h : fault? text.toList with
  | none => .ok ⟨text, h⟩
  | some fault => .error fault

/-- The text `<init>` names the constructors of a class. -/
def isConstructor (name : UnqualifiedName) : Bool := name.text = "<init>"

end UnqualifiedName

namespace BinaryName

/-- What `segments` does: the segment before the characters, and the segments before that, are
in reverse. -/
def segmentsOnto : List Char → (segment : List Char) → (done : List (List Char)) →
    List (List Char)
  | [], segment, done => (segment.reverse :: done).reverse
  | c :: rest, segment, done =>
    if c = '/' then segmentsOnto rest [] (segment.reverse :: done)
    else segmentsOnto rest (c :: segment) done

/-- The parts of some characters between the slashes. -/
def segments (chars : List Char) : List (List Char) := segmentsOnto chars [] []

/-- What keeps some characters from being a binary name. -/
def fault? (chars : List Char) : Option NameFault :=
  if chars.isEmpty then some .emptyBinary
  else (segments chars).findSome? UnqualifiedName.fault?

end BinaryName

/-- The name of a class or an interface, with slashes between its parts. -/
structure BinaryName where
  text : String
  valid : BinaryName.fault? text.toList = none
deriving DecidableEq

namespace BinaryName

/-- A text as a binary name. -/
def ofText (text : String) : Except NameFault BinaryName :=
  match h : fault? text.toList with
  | none => .ok ⟨text, h⟩
  | some fault => .error fault

/-- The class at the root of the hierarchy has no superclass. -/
def isRoot (name : BinaryName) : Bool := name.text = "java/lang/Object"

end BinaryName

end FreshLocal
