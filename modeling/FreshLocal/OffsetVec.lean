/-!
# Vectors by offset

Elements of different widths stand one behind the other, each with the offset at
which it starts. Offsets ascend, so an element is found by a binary search for
its offset. An offset inside of a wide element finds nothing.

* `searchBy`: the binary search.
* `OffsetVec.push`, `OffsetVec.get?`: put an element at the end, and find one.
-/

namespace FreshLocal

variable {α : Type}

/-- Binary search between two indices, for an element with a key. The keys have to ascend. -/
def searchBy (key : α → Nat) (xs : Array α) (wanted low high : Nat) (h : high ≤ xs.size) :
    Option α :=
  if hlow : low < high then
    let middle := low + (high - low) / 2
    if key xs[middle] = wanted then some xs[middle]
    else if key xs[middle] < wanted then searchBy key xs wanted (middle + 1) high h
    else searchBy key xs wanted low middle (by omega)
  else none
termination_by high - low

/-- Elements one behind the other. -/
structure OffsetVec (α : Type) where
  /-- The elements, each behind the offset at which it starts. -/
  entries : Array (Nat × α)
  /-- The offset at which the next element starts. -/
  next : Nat

namespace OffsetVec

/-- No elements, and the offset of the first one. -/
def startingAt (offset : Nat) : OffsetVec α := ⟨#[], offset⟩

/-- Put an element at the end. -/
def push (v : OffsetVec α) (width : Nat) (x : α) : OffsetVec α :=
  ⟨v.entries.push (v.next, x), v.next + width⟩

/-- The element that starts at an offset. -/
def get? (v : OffsetVec α) (offset : Nat) : Option α :=
  (searchBy Prod.fst v.entries offset 0 v.entries.size (Nat.le_refl _)).map Prod.snd

end OffsetVec

end FreshLocal
