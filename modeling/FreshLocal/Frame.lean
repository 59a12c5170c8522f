/-!
# Stack map frames

At the targets of jumps a method tells which types its local variables and its
operand stack have. Locals are listed one entry for each value, so a `long` is
one entry that covers two slots. Frames other than full ones say how the locals
differ from those of the frame before.

The types are over two parameters: `κ`, how a class is named, and `π`, how a
position in the code is given.

* `VerificationType.width`, `slotCount`: how many slots a value takes, or a list.
* `Frame.locals?`, `Frame.stack`: what a frame says, given the locals before it.
* `run?`: the locals at each of several frames in a row.
-/

namespace FreshLocal

/-- What is known of a value in a local variable or on the stack. -/
inductive VerificationType (κ π : Type)
  /-- Nothing; the slot cannot be used. -/
  | top
  | integer
  | float
  | double
  | long
  | null
  /-- The receiver of a constructor, before another constructor was called on it. -/
  | uninitializedThis
  | object (name : κ)
  /-- An object made at the given position on which no constructor was called. -/
  | uninitialized (made : π)
deriving DecidableEq

namespace VerificationType

variable {κ π κ' π' : Type} {m : Type → Type} [Monad m]

/-- Values of type `long` and `double` take two slots. -/
def width : VerificationType κ π → Nat
  | double | long => 2
  | _ => 1

/-- Change how classes are named and how positions are given. -/
def mapM (onClass : κ → m κ') (onMade : π → m π') :
    VerificationType κ π → m (VerificationType κ' π')
  | top => pure top
  | integer => pure integer
  | float => pure float
  | double => pure double
  | long => pure long
  | null => pure null
  | uninitializedThis => pure uninitializedThis
  | object name => object <$> onClass name
  | uninitialized made => uninitialized <$> onMade made

/-- The position a type refers to. -/
def position? : VerificationType κ π → Option π
  | uninitialized made => some made
  | _ => none

end VerificationType

/-- How many slots the values of a list take. -/
def slotCount {κ π : Type} (types : List (VerificationType κ π)) : Nat :=
  types.foldr (fun t slots => t.width + slots) 0

/-- The types at one place of the code. -/
inductive Frame (κ π : Type)
  /-- The locals of the frame before, and an empty stack. -/
  | same
  /-- The locals of the frame before, and one value on the stack. -/
  | sameOne (onStack : VerificationType κ π)
  /-- The locals of the frame before without the last ones, and an empty stack. -/
  | chop (count : UInt8)
  /-- The locals of the frame before and some more, and an empty stack. -/
  | append (more : List (VerificationType κ π))
  /-- Exactly these locals and this stack. -/
  | full (locals stack : List (VerificationType κ π))
deriving DecidableEq

namespace Frame

variable {κ π κ' π' : Type} {m : Type → Type} [Monad m]

/-- Change how classes are named and how positions are given. -/
def mapM (onClass : κ → m κ') (onMade : π → m π') : Frame κ π → m (Frame κ' π')
  | same => pure same
  | sameOne t => sameOne <$> t.mapM onClass onMade
  | chop count => pure (chop count)
  | append more => append <$> more.mapM (VerificationType.mapM onClass onMade)
  | full locals stack =>
    full <$> locals.mapM (VerificationType.mapM onClass onMade)
      <*> stack.mapM (VerificationType.mapM onClass onMade)

/-- The types that a frame spells out. -/
def types : Frame κ π → List (VerificationType κ π)
  | same | chop _ => []
  | sameOne t => [t]
  | append more => more
  | full locals stack => locals ++ stack

/-- The positions that a frame refers to. -/
def positions (f : Frame κ π) : List π := f.types.filterMap VerificationType.position?

/-- How many locals of the frame before are removed. -/
def chopped : Frame κ π → UInt8
  | chop count => count
  | _ => 0

/-- Does the frame spell out all of its locals? -/
def isFull : Frame κ π → Bool
  | full _ _ => true
  | _ => false

/-- The locals at a frame, given those at the frame before. There are none if the frame removes
more of them than there are. -/
def locals? (before : List (VerificationType κ π)) :
    Frame κ π → Option (List (VerificationType κ π))
  | same | sameOne _ => some before
  | chop count =>
    if count.toNat ≤ before.length then some (before.take (before.length - count.toNat)) else none
  | append more => some (before ++ more)
  | full locals _ => some locals

/-- The stack at a frame. -/
def stack : Frame κ π → List (VerificationType κ π)
  | sameOne t => [t]
  | full _ stack => stack
  | _ => []

/-- The locals at each of some frames in a row. -/
def run? (before : List (VerificationType κ π)) :
    List (Frame κ π) → Option (List (List (VerificationType κ π)))
  | [] => some []
  | f :: rest =>
    match f.locals? before with
    | none => none
    | some locals => (run? locals rest).map (locals :: ·)

end Frame

end FreshLocal
