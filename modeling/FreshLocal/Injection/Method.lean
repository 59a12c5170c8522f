import FreshLocal.Slot.Allocator
import FreshLocal.Stage

/-!
# A fresh variable in the body of a method

Right behind the start of a body, a new variable of type `int` is set to -1.
Everything else in the body goes through the allocator, one event for one event.

* `MethodInjection.step`: what becomes of one event of a body.
-/

namespace FreshLocal

/-- The injection into one body; `fresh` is the slot of the new variable, once there is one. -/
structure MethodInjection where
  allocator : Allocator
  fresh : Option UInt16

namespace MethodInjection

/-- Before the body starts. -/
def ofAllocator (allocator : Allocator) : MethodInjection := ⟨allocator, none⟩

/-- Start the body and set the new variable. -/
def start (i : MethodInjection) (maxStack maxLocals : UInt16) : Step BodyEvent MethodInjection :=
  let started := { i with allocator := i.allocator.begin maxLocals }
  let event := (BodyEvent.start maxStack maxLocals, started)
  match started.allocator.allocate (.ofBase .int) with
  | .error fault => ⟨[event], started, some fault, none⟩
  | .ok (slot, allocator) =>
    let ready : MethodInjection := ⟨allocator, some slot⟩
    ⟨[event, (.operation (.plain (.nullary .iconstM1)), ready),
        (.operation (.plain (.store .int slot)), ready)],
      ready, none, none⟩

/-- The event with its slots at their new places. Events without a slot stay as they are. -/
def relocated (i : MethodInjection) : BodyEvent → Except Fault BodyEvent
  | .operation op => .operation <$> op.mapSlotM i.allocator.relocate
  | .localVariable isGeneric v =>
    (fun slot => .localVariable isGeneric { v with slot }) <$> i.allocator.relocate v.slot
  | .annotatedType a => .annotatedType <$> a.mapSlotsM i.allocator.relocate
  | .limits maxStack maxLocals => .limits (max maxStack 1) <$> i.allocator.limit maxLocals
  | event => .ok event

/-- What becomes of one event of a body. -/
def step : Stage BodyEvent MethodInjection := fun i event =>
  match event with
  | .start maxStack maxLocals => i.start maxStack maxLocals
  | .frame f =>
    match i.allocator.takeFrame f with
    | (allocator, .ok f) => .send { i with allocator } (.frame f)
    | (allocator, .error fault) => .stop { i with allocator } fault
  | event =>
    match i.relocated event with
    | .ok event => .send i event
    | .error fault => .stop i fault

end MethodInjection

end FreshLocal
