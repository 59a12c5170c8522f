import FreshLocal.Event
import FreshLocal.Instruction.Encoding
import Std.Data.HashMap

/-!
# The layout of code

The items of a body get their offsets in order. Most jumps are written with a
distance of 16 bits; `goto` and `jsr` have a **wide** form as well. All of them
are narrow at first, and those that are out of reach become wide, until every
narrow one is in reach. A jump that became wide stays wide, so the rounds are at
most one more than these jumps. It stays so even if its target comes closer again,
which it may: behind a jump that grew a switch can do with less padding.

* `Layout.place`: the offsets of some items, given which jumps are wide.
* `Layout.ofItems`: the layout of a body.
* `Layout.offset`, `Layout.offset16`: the offset of a label.
-/

namespace FreshLocal

/-- What has a place in the code of a method. -/
inductive BodyItem
  | label (l : Label)
  | frame (f : CodeFrame)
  | operation (op : Operation Label)

namespace BodyItem

/-- How many bytes an item takes at an offset. Labels and frames take none. -/
def width (offset : Nat) (wide : Bool) : BodyItem → Nat
  | label _ | frame _ => 0
  | operation (.plain i) => i.width
  | operation (.branch b) => b.width offset wide

/-- The target of a jump that has a wide form. -/
def widenable? : BodyItem → Option Label
  | operation (.branch (.goto target)) | operation (.branch (.jsr target)) => some target
  | _ => none

end BodyItem

/-- An item with its offset. -/
structure PlacedItem where
  offset : Nat
  item : BodyItem
  /-- Is the item a jump in its wide form? -/
  wide : Bool

/-- The offsets of all items of a body. -/
structure Layout where
  items : List PlacedItem
  labels : Std.HashMap Label Nat
  /-- The number of bytes of the code. -/
  length : Nat

/-- Can a distance be written in 16 bits? -/
def isNear (distance : Int) : Bool := -32768 ≤ distance && distance ≤ 32767

namespace Layout

/-- What `place` does from an offset on; `labels` are those before it and the items before it
are in reverse. -/
def placeOnto : (offset : Nat) → (labels : Std.HashMap Label Nat) →
    List (BodyItem × Bool) → (done : List PlacedItem) → Except Fault Layout
  | offset, labels, [], done => .ok ⟨done.reverse, labels, offset⟩
  | offset, labels, (.label l, wide) :: rest, done =>
    if labels.contains l then .error (.duplicateLabel l)
    else placeOnto offset (labels.insert l offset) rest (⟨offset, .label l, wide⟩ :: done)
  | offset, labels, (item, wide) :: rest, done =>
    placeOnto (offset + item.width offset wide) labels rest (⟨offset, item, wide⟩ :: done)

/-- Place items one behind the other; each comes with whether it is a wide jump. -/
def place (items : List (BodyItem × Bool)) : Except Fault Layout := placeOnto 0 ∅ items []

/-- The offset of a label. -/
def offset (layout : Layout) (l : Label) : Except Fault Nat :=
  match layout.labels[l]? with
  | some o => .ok o
  | none => .error (.unplacedLabel l)

/-- The offset of a label in 16 bits. -/
def offset16 (layout : Layout) (l : Label) : Except Fault UInt16 := do
  let o ← layout.offset l
  if o ≤ 65535 then pure (UInt16.ofNat o) else throw (.codeTooLong o)

/-- The distance from an offset to a label. -/
def distance (layout : Layout) (source : Nat) (l : Label) : Except Fault Int := do
  let o ← layout.offset l
  pure ((o : Int) - source)

/-- Is the item a narrow jump that has to become wide? -/
def isTooFar (layout : Layout) (p : PlacedItem) : Except Fault Bool :=
  if p.wide then pure false
  else
    match p.item.widenable? with
    | none => pure false
    | some target => do
      let d ← layout.distance p.offset target
      pure (!isNear d)

/-- A layout whose code is not too long. -/
def checkLength (layout : Layout) : Except Fault Layout :=
  if layout.length ≤ 65535 then .ok layout else .error (.codeTooLong layout.length)

/-- Place items and widen the jumps that are out of reach, for at most `rounds` rounds more. -/
def settle : (rounds : Nat) → List (BodyItem × Bool) → Except Fault Layout
  | 0, items => do checkLength (← place items)
  | rounds + 1, items => do
    let layout ← place items
    let far ← layout.items.mapM layout.isTooFar
    if far.any id then
      settle rounds ((items.zip far).map fun ((item, wide), isFar) => (item, wide || isFar))
    else checkLength layout

/-- The layout of a body. -/
def ofItems (items : List BodyItem) : Except Fault Layout :=
  settle (items.countP (·.widenable?.isSome)) (items.map (·, false))

end Layout

end FreshLocal
