/-!
# Faults

What can go wrong between the bytes of a class file and the bytes of the one
with fresh variables. A fault is a cause with the data that describes it; the
wording is chosen in one place, `Fault.message`.

* `DecodeFault`: the bytes are not a class file.
* `FrameFault`: a stack map frame cannot be carried over the new slots.
* `EventFault`: an event came where the stream of events has no place for it.
* `Fault`: any of these, or a limit of the format that was passed, possibly
  inside a named method (`Fault.inMethod`).
-/

namespace FreshLocal

/-- A position in the code of one method, named rather than counted in bytes. -/
structure Label where
  id : Nat
deriving DecidableEq, Hashable

/-- A label is shown as `l` and its number. -/
def Label.text (l : Label) : String := s!"l{l.id}"

/-- A supply of labels that were not used before. -/
structure LabelSupply where
  next : Nat

/-- The supply that hands out the label `0` first. -/
def LabelSupply.fresh : LabelSupply := ⟨0⟩

/-- The next label, and the supply after it. -/
def LabelSupply.take (s : LabelSupply) : Label × LabelSupply := (⟨s.next⟩, ⟨s.next + 1⟩)

/-- Why a sequence of bytes is not a class file. -/
inductive DecodeFault
  /-- The bytes end too early. -/
  | truncated
  | badMagic (magic : UInt32)
  | badConstantTag (tag : UInt8)
  /-- No constant starts at this index. -/
  | badConstantIndex (index : UInt16)
  /-- The constant at this index is of another type than the place asks for. -/
  | wrongConstantType (index : UInt16) (expected : String)
  | malformedUtf8
  | unknownOpcode (opcode : UInt8)
  /-- The instruction after a `wide` has no wide form. -/
  | badWideOpcode (opcode : UInt8)
  | badArrayType (code : UInt8)
  | badHandleKind (kind : UInt8)
  /-- No instruction starts at this offset. -/
  | invalidCodeOffset (offset : Nat)
  /-- The switch at this offset has an impossible number of targets. -/
  | malformedSwitch (offset : Nat)
  | badFrameType (tag : UInt8)
  | badVerificationType (tag : UInt8)
  | badTypeAnnotationTarget (target : UInt8)
  | badElementValueTag (tag : UInt8)
  /-- Bytes are left over behind the named structure. -/
  | trailingBytes (what : String)
deriving DecidableEq

/-- Why a stack map frame cannot be carried over the new slots. -/
inductive FrameFault
  /-- The frame removes more locals than the frame before it had. -/
  | chopUnderflow (chopped : UInt8) (available : Nat)
  /-- A two-slot local starts below the boundary and ends above it. -/
  | straddlingLocal (slot : Nat)
  /-- A frame relative to the one before it would change its meaning. -/
  | compactFrameAcrossBoundary
deriving DecidableEq

/-- Which rule of the stream of events was broken. -/
inductive EventFault
  | secondClass
  | outsideClass
  | nestedMethod
  | codeOutsideMethod
  | secondBody
  | outsideBody
  | methodEndOutsideMethod
  | endInsideMethod
  | classUnfinished
  | chopSize
  | appendSize
  | variableEndsBeforeStart
  | allocationBeforeStart
  | methodInsideMethod
  | methodBeforeClass
  | methodEndWithoutStart
deriving DecidableEq

/-- Everything that can stop the work on a class. -/
inductive Fault
  | decode (cause : DecodeFault)
  /-- There is no room for a constant at this index. -/
  | constantPoolFull (index : UInt16)
  | malformedDescriptor (text : String)
  /-- The code of a method is longer than 65535 bytes. -/
  | codeTooLong (length : Nat)
  /-- A jump without a wide form is longer than 16 bits can say. -/
  | jumpTooFar (source target : Nat)
  | unplacedLabel (label : Label)
  | duplicateLabel (label : Label)
  /-- Two stack map frames stand before one instruction. -/
  | conflictingFrames (offset : Nat)
  | localsOverflow (index : UInt32)
  | unsupportedFrame (cause : FrameFault)
  | unexpectedEvent (cause : EventFault)
  | inMethod (method : String) (inner : Fault)
deriving DecidableEq

/-- The words for a malformed class file. -/
def DecodeFault.text : DecodeFault → String
  | truncated => "Truncated"
  | badMagic n => s!"BadMagic({n})"
  | badConstantTag t => s!"BadConstantTag({t})"
  | badConstantIndex i => s!"BadConstantIndex(ConstantIndex({i}))"
  | wrongConstantType i expected => s!"WrongConstantType(ConstantIndex({i}), \"{expected}\")"
  | malformedUtf8 => "MalformedUtf8"
  | unknownOpcode b => s!"UnknownOpcode({b})"
  | badWideOpcode b => s!"BadWideOpcode({b})"
  | badArrayType c => s!"BadArrayType({c})"
  | badHandleKind k => s!"BadHandleKind({k})"
  | invalidCodeOffset o => s!"InvalidCodeOffset({o})"
  | malformedSwitch o => s!"MalformedSwitch({o})"
  | badFrameType t => s!"BadFrameType({t})"
  | badVerificationType t => s!"BadVerificationType({t})"
  | badTypeAnnotationTarget t => s!"BadTypeAnnotationTarget({t})"
  | badElementValueTag t => s!"BadElementValueTag({t})"
  | trailingBytes what => s!"TrailingBytes(\"{what}\")"

/-- The words for a frame that cannot be carried over. -/
def FrameFault.text : FrameFault → String
  | chopUnderflow chopped available =>
    s!"ChopUnderflow \x7b chopped: {chopped}, available: {available} \x7d"
  | straddlingLocal slot => s!"StraddlingLocal \x7b slot: {slot} \x7d"
  | compactFrameAcrossBoundary => "CompactFrameAcrossBoundary"

/-- The words for an event out of place. -/
def EventFault.text : EventFault → String
  | secondClass => "second class header"
  | outsideClass => "class event outside of a class"
  | nestedMethod => "method inside a method"
  | codeOutsideMethod => "code outside of a method"
  | secondBody => "method has two bodies"
  | outsideBody => "code event outside of a method body"
  | methodEndOutsideMethod => "method end outside of a method"
  | endInsideMethod => "class ended inside a method"
  | classUnfinished => "class was not finished"
  | chopSize => "chop frame must remove 1 to 3 locals"
  | appendSize => "append frame must add 1 to 3 locals"
  | variableEndsBeforeStart => "local variable ends before it starts"
  | allocationBeforeStart => "slot allocated before the start of the code"
  | methodInsideMethod => "method inside of a method"
  | methodBeforeClass => "method before the class header"
  | methodEndWithoutStart => "end of a method that never started"

/-- The message shown for a fault. -/
def Fault.message : Fault → String
  | decode cause => s!"malformed class file: {cause.text}"
  | constantPoolFull i => s!"constant pool is full at index {i}"
  | malformedDescriptor text => s!"malformed descriptor '{text}'"
  | codeTooLong n => s!"method code is too long ({n})"
  | jumpTooFar source target => s!"branch from {source} to {target} does not fit in 16 bits"
  | unplacedLabel l => s!"label {l.text} was never placed"
  | duplicateLabel l => s!"label {l.text} was placed twice"
  | conflictingFrames o => s!"more than one stack map frame at offset {o}"
  | localsOverflow i => s!"local variable index {i} overflows"
  | unsupportedFrame cause => s!"cannot rewrite stack map frame: {cause.text}"
  | unexpectedEvent cause => s!"unexpected event: {cause.text}"
  | inMethod method inner => s!"in method {method}: {inner.message}"

/-- Name the method a fault arose in, unless the fault names one already. -/
def Fault.within (method : String) : Fault → Fault
  | inMethod m inner => inMethod m inner
  | fault => inMethod method fault

end FreshLocal
