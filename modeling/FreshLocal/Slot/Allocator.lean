import FreshLocal.Slot.Extension
import FreshLocal.Slot.Insertion

/-!
# Allocators

An allocator decides where the new variables of one method go, and how the old
ones move to make room. It hears of the declared limits first, and then of every
slot and every frame of the body in order.

* `Options.allocator`: the allocator for a method.
* `Allocator.allocate`, `Allocator.relocate`, `Allocator.takeFrame`,
  `Allocator.limit`: what it decides.
-/

namespace FreshLocal

/-- Where new variables go. -/
inductive Placement
  | behindArguments
  | behindAll
deriving DecidableEq

/-- How fresh variables are put into a class. The policy matters only to variables behind the
arguments. -/
structure Options where
  placement : Placement
  policy : RelativeFrames
deriving DecidableEq

/-- Put new variables behind the arguments, and spell out the frames that need it. -/
def Options.standard : Options := ⟨.behindArguments, .spellOut⟩

/-- The new variables of one method. -/
inductive Allocator
  | insertion (p : Insertion)
  | extension (x : Extension)

/-- The allocator for a method. -/
def Options.allocator (options : Options) (m : DeclaredMethod) : Allocator :=
  match options.placement with
  | .behindArguments => .insertion (.ofMethod m options.policy)
  | .behindAll => .extension .idle

namespace Allocator

/-- The code begins, and declares this number of slots. -/
def begin (maxLocals : UInt16) : Allocator → Allocator
  | insertion p => insertion p
  | extension _ => extension (.begin maxLocals)

/-- A new variable of the given type, and its slot. -/
def allocate (a : Allocator) (type : FieldType) : Except Fault (UInt16 × Allocator) :=
  match a with
  | insertion p => (fun (slot, p) => (slot, insertion p)) <$> p.allocate type
  | extension x => (fun (slot, x) => (slot, extension x)) <$> x.allocate type

/-- The new place of a slot. -/
def relocate (a : Allocator) (slot : UInt16) : Except Fault UInt16 :=
  match a with
  | insertion p => p.relocate slot
  | extension _ => .ok slot

/-- Carry a frame over. -/
def takeFrame (a : Allocator) (f : CodeFrame) : Allocator × Except Fault CodeFrame :=
  match a with
  | insertion p =>
    let (p, result) := p.takeFrame f
    (insertion p, result)
  | extension x => (extension x, .ok f)

/-- How many slots are new. -/
def width : Allocator → Nat
  | insertion p => p.range.width
  | extension x => x.width

/-- The number of slots that the method declares with the new ones. -/
def limit (a : Allocator) (declared : UInt16) : Except Fault UInt16 :=
  slot16 (declared.toNat + a.width)

end Allocator

end FreshLocal
