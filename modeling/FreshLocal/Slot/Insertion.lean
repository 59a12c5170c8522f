import FreshLocal.Slot

/-!
# New slots right behind the arguments

New variables are put at the **boundary**, the first slot behind the arguments,
and every variable from there on moves up by their width. Slots in instructions
are shifted. A stack map frame lists its locals by position, so the types of the
new variables are put between them at the boundary.

A frame that is given relative to the one before it means the same with the new
variables if it changes nothing below the boundary; then it is kept. Otherwise
it is spelled out, or refused, as the policy says. The first frame is relative
to the arguments and always spelled out.

* `insertLocals`: put types into a list of locals at a slot.
* `Insertion.allocate`, `Insertion.relocate`: a new slot, and the new place of an old one.
* `Insertion.carry`: a frame with the new variables in it.
-/

namespace FreshLocal

/-- What becomes of a relative frame that would change its meaning. -/
inductive RelativeFrames
  | spellOut
  | refuse
deriving DecidableEq

/-- How many of some locals end at or below `boundary`, if the first starts at `slot` and `n` came
before, and how many slots are missing to the boundary. The error is the slot of a local that
reaches over the boundary. -/
def splitLocals {κ π : Type} (boundary : Nat) :
    (slot n : Nat) → List (VerificationType κ π) → Except Nat (Nat × Nat)
  | slot, n, [] => .ok (n, boundary - slot)
  | slot, n, t :: rest =>
    if slot < boundary then
      if slot + t.width ≤ boundary then splitLocals boundary (slot + t.width) (n + 1) rest
      else .error slot
    else .ok (n, 0)

/-- Put types into a list of locals at the slot `boundary`, with unusable slots in front of them
where the list does not come so far. The error is the slot of a local that is in the way. -/
def insertLocals {κ π : Type} (boundary : Nat) (inserted locals : List (VerificationType κ π)) :
    Except Nat (List (VerificationType κ π)) := do
  let (n, missing) ← splitLocals boundary 0 0 locals
  pure (locals.take n ++ List.replicate missing .top ++ inserted ++ locals.drop n)

/-- New slots at the boundary of one method, and the frames seen so far. -/
structure Insertion where
  /-- The locals when the method is entered. -/
  implicit : List CodeType
  policy : RelativeFrames
  /-- The new slots, which start at the boundary. -/
  range : SlotRange
  /-- The types of the new variables, one entry for each. -/
  inserted : List CodeType
  /-- The locals at the last frame before the new variables came in, if there was a frame and the
  last one was carried over. -/
  previous : Option (List CodeType)

namespace Insertion

/-- No new slot yet. -/
def ofMethod (m : DeclaredMethod) (policy : RelativeFrames) : Insertion :=
  ⟨m.implicit, policy, .emptyAt m.first, [], none⟩

/-- The first slot that moves. -/
def boundary (p : Insertion) : Nat := p.range.start

/-- A new variable of the given type, and its slot. -/
def allocate (p : Insertion) (type : FieldType) : Except Fault (UInt16 × Insertion) :=
  match p.range.extend type.width with
  | .error fault => .error fault
  | .ok (slot, range) => .ok (slot, { p with range, inserted := p.inserted ++ [type.localType] })

/-- The new place of a slot. -/
def relocate (p : Insertion) (slot : UInt16) : Except Fault UInt16 :=
  if slot.toNat < p.boundary then .ok slot else slot16 (slot.toNat + p.range.width)

/-- The locals that a relative frame refers to. -/
def before (p : Insertion) : List CodeType := p.previous.getD p.implicit

/-- Does a frame with the given locals mean the same with the new variables? -/
def keeps (p : Insertion) (f : CodeFrame) (locals : List CodeType) : Bool :=
  p.previous.isSome &&
    match f with
    | .full _ _ => false
    | .same | .sameOne _ => true
    | .chop _ | .append _ =>
      p.boundary ≤ slotCount p.before && p.boundary ≤ slotCount locals

/-- The frame with the new variables in it, and the locals it had without them. -/
def carry (p : Insertion) (f : CodeFrame) : Except FrameFault (CodeFrame × List CodeType) :=
  match f.locals? p.before with
  | none => .error (.chopUnderflow f.chopped p.before.length)
  | some locals =>
    match insertLocals p.boundary p.inserted locals with
    | .error slot => .error (.straddlingLocal slot)
    | .ok widened =>
      if p.keeps f locals then .ok (f, locals)
      else if p.policy = .refuse ∧ p.previous.isSome ∧ ¬ f.isFull then
        .error .compactFrameAcrossBoundary
      else .ok (.full widened f.stack, locals)

/-- Carry a frame over. After a frame that cannot be carried over, the next one counts as the
first. -/
def takeFrame (p : Insertion) (f : CodeFrame) : Insertion × Except Fault CodeFrame :=
  match p.carry f with
  | .ok (carried, locals) => ({ p with previous := some locals }, .ok carried)
  | .error cause => ({ p with previous := none }, .error (.unsupportedFrame cause))

end Insertion

end FreshLocal
