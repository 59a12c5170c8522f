import FreshLocal.Slot

/-!
# New slots behind all others

New variables are put behind every slot that the method declares. No old
variable moves, and no frame mentions the new ones.

* `Extension.begin`: where the new slots start.
* `Extension.allocate`: a new slot.
-/

namespace FreshLocal

/-- New slots behind those of one method; the range is there once the code has begun. -/
structure Extension where
  range : Option SlotRange

namespace Extension

/-- Before the code of the method begins. -/
def idle : Extension := ⟨none⟩

/-- The code begins, and declares this number of slots. -/
def begin (maxLocals : UInt16) : Extension := ⟨some (.emptyAt maxLocals.toNat)⟩

/-- How many slots are new. -/
def width (x : Extension) : Nat :=
  match x.range with
  | none => 0
  | some range => range.width

/-- A new variable of the given type, and its slot. -/
def allocate (x : Extension) (type : FieldType) : Except Fault (UInt16 × Extension) :=
  match x.range with
  | none => .error (.unexpectedEvent .allocationBeforeStart)
  | some range =>
    match range.extend type.width with
    | .error fault => .error fault
    | .ok (slot, range) => .ok (slot, ⟨some range⟩)

end Extension

end FreshLocal
