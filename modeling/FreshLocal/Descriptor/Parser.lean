import FreshLocal.Descriptor

/-!
# Reading descriptors

A reader takes a type off the front of a list of characters. Each reader below
accepts exactly the texts that the type renders to.

* `FieldType.parse`, `MethodDescriptor.parse`: a text as a type.
* `DescriptorFault`: why a text is not a descriptor.
-/

namespace FreshLocal

/-- Why a text is not a descriptor. -/
inductive DescriptorFault
  | leftover (c : Char)
  | badBaseType (c : Char)
  | missingBaseType
  | notAClass
  | missingTerminator (name : String)
  | badName (fault : NameFault)
  | badReferenceType (c : Char)
  | missingReferenceType
  | notAMethod
  | missingParenthesis
deriving DecidableEq

namespace DescriptorFault

/-- Does the text end too early, rather than go on in a wrong way? -/
def isEnd : DescriptorFault → Bool
  | missingBaseType | missingTerminator _ | missingReferenceType | missingParenthesis => true
  | _ => false

/-- The message shown for a text that is not a descriptor. -/
def message : DescriptorFault → String
  | leftover c => s!"Unexpected leftover input '{c}'"
  | badBaseType c => s!"Invalid base type character '{c}'"
  | missingBaseType => "Missing base type character"
  | notAClass => "Expected object type to start with `L`"
  | missingTerminator name => s!"Missing terminator for 'L{name}'"
  | badName fault => fault.message
  | badReferenceType c => s!"Invalid reference type character '{c}'"
  | missingReferenceType => "Missing reference type"
  | notAMethod => "Expected '(' for method"
  | missingParenthesis => "Expected ')' for method"

end DescriptorFault

/-- Takes a value off the front of some characters. -/
abbrev CharReader (α : Type) := List Char → Except DescriptorFault (α × List Char)

/-- The value in a text that holds nothing else. -/
def CharReader.whole {α : Type} (r : CharReader α) (text : String) : Except DescriptorFault α :=
  match r text.toList with
  | .error fault => .error fault
  | .ok (x, []) => .ok x
  | .ok (_, c :: _) => .error (.leftover c)

/-- Takes the letter of a primitive type. -/
def BaseType.read : CharReader BaseType
  | [] => .error .missingBaseType
  | c :: rest =>
    match ofLetter? c with
    | some type => .ok (type, rest)
    | none => .error (.badBaseType c)

/-- Takes a class type: its name stands between an `L` and the next semicolon. -/
def BinaryName.read : CharReader BinaryName
  | 'L' :: rest =>
    match rest.span (· ≠ ';') with
    | (name, []) => .error (.missingTerminator (String.ofList name))
    | (name, _ :: rest) =>
      match BinaryName.ofText (String.ofList name) with
      | .ok name => .ok (name, rest)
      | .error fault => .error (.badName fault)
  | _ => .error .notAClass

/-- Takes a type that is not an array. -/
def ElementType.read : CharReader ElementType
  | cs@('L' :: _) =>
    match BinaryName.read cs with
    | .ok (name, rest) => .ok (.object name, rest)
    | .error fault => .error fault
  | cs =>
    match BaseType.read cs with
    | .ok (type, rest) => .ok (.primitive type, rest)
    | .error fault => .error fault

/-- Takes a field type: brackets, then an element type. -/
def FieldType.read : CharReader FieldType := fun cs =>
  match ElementType.read (cs.dropWhile (· = '[')) with
  | .ok (element, rest) => .ok (⟨(cs.takeWhile (· = '[')).length, element⟩, rest)
  | .error fault => .error fault

/-- Takes a field type that is a class or an array. -/
def FieldType.readReference : CharReader FieldType
  | [] => .error .missingReferenceType
  | c :: rest =>
    if c = 'L' ∨ c = '[' then FieldType.read (c :: rest) else .error (.badReferenceType c)

namespace MethodDescriptor

/-- Takes at most `fuel` field types and a closing parenthesis, behind those of `done`, which
are in reverse. -/
def readParametersOnto : (fuel : Nat) → (done : List FieldType) → CharReader (List FieldType)
  | _, _, [] => .error .missingParenthesis
  | _, done, ')' :: rest => .ok (done.reverse, rest)
  | 0, _, _ => .error .missingParenthesis
  | fuel + 1, done, cs =>
    match FieldType.read cs with
    | .ok (t, rest) => readParametersOnto fuel (t :: done) rest
    | .error fault => .error fault

/-- Takes the types of the parameters and the parenthesis behind them. -/
def readParameters : CharReader (List FieldType) := fun cs => readParametersOnto cs.length [] cs

/-- Takes the type of the result. -/
def readResult : CharReader (Option FieldType)
  | 'V' :: rest => .ok (none, rest)
  | cs =>
    match FieldType.read cs with
    | .ok (t, rest) => .ok (some t, rest)
    | .error fault => .error fault

/-- Takes a method descriptor. -/
def read : CharReader MethodDescriptor
  | '(' :: rest =>
    match readParameters rest with
    | .error fault => .error fault
    | .ok (parameters, rest) =>
      match readResult rest with
      | .error fault => .error fault
      | .ok (result, rest) => .ok (⟨parameters, result⟩, rest)
  | _ => .error .notAMethod

end MethodDescriptor

/-- The primitive type a text stands for. -/
def BaseType.parse : String → Except DescriptorFault BaseType := CharReader.whole BaseType.read

/-- The class a text such as `Lme/Test;` stands for. -/
def BinaryName.parse : String → Except DescriptorFault BinaryName :=
  CharReader.whole BinaryName.read

/-- The class or array type a text stands for. -/
def FieldType.parseReference : String → Except DescriptorFault FieldType :=
  CharReader.whole FieldType.readReference

/-- The field type a text stands for. -/
def FieldType.parse : String → Except DescriptorFault FieldType := CharReader.whole FieldType.read

/-- The method descriptor a text stands for. -/
def MethodDescriptor.parse : String → Except DescriptorFault MethodDescriptor :=
  CharReader.whole MethodDescriptor.read

end FreshLocal
