import FreshLocal.Proofs.Relocation

/-!
# Why the injection stops

The injection into a body stops for two reasons: a slot has no place in 16 bits,
or a frame cannot be carried over. Both are said of the body alone; the method is
named by the stage around it.

* `Fault.OfSlots`: the two faults.
* `Allocator.onlyFaults_allocate`, `onlyFaults_relocate`, `onlyFaults_takeFrame`: what the
  allocator refuses.
* `MethodInjection.ofSlots_step`, `MethodInjection.ofSlots_run`: **the injection stops** for
  these faults only.
-/

namespace FreshLocal

/-- A slot that 16 bits cannot hold, or a frame that cannot be carried over. -/
def Fault.OfSlots : Fault → Prop
  | localsOverflow _ | unsupportedFrame _ => True
  | _ => False

theorem onlyFaults_slot16 (n : Nat) : OnlyFaults Fault.OfSlots (slot16 n) := by
  unfold slot16
  split
  · exact onlyFaults_ok _
  · exact onlyFaults_error trivial

section Slots

variable {π : Type} {P : Fault → Prop} {f : UInt16 → Except Fault UInt16}

theorem Operation.onlyFaults_mapSlotM (hf : ∀ slot, OnlyFaults P (f slot)) (op : Operation π) :
    OnlyFaults P (op.mapSlotM f) := by
  cases op with
  | branch b => exact onlyFaults_ok _
  | plain i =>
    refine OnlyFaults.map ?_
    cases i with
    | load kind slot | store kind slot | iinc slot amount | ret slot => exact (hf slot).map
    | _ => exact onlyFaults_ok _

theorem AnnotatedType.onlyFaults_mapSlotsM (hf : ∀ slot, OnlyFaults P (f slot))
    (a : AnnotatedType π) : OnlyFaults P (a.mapSlotsM f) := by
  refine OnlyFaults.bind ?_ fun _ _ => onlyFaults_ok _
  cases a.target with
  | localVariable isResource ranges =>
    exact OnlyFaults.map (OnlyFaults.mapM fun r _ =>
      (hf r.slot).bind fun _ _ => onlyFaults_ok _)
  | _ => exact onlyFaults_ok _

end Slots

theorem SlotRange.onlyFaults_extend (r : SlotRange) (width : Nat) :
    OnlyFaults Fault.OfSlots (r.extend width) := by
  unfold extend
  split
  · exact onlyFaults_ok _
  · exact onlyFaults_error trivial

namespace Allocator

/-- Behind the start of a body there are slots to be handed out, or no more. -/
theorem onlyFaults_allocate (a : Allocator) (maxLocals : UInt16) (type : FieldType) :
    OnlyFaults Fault.OfSlots ((a.begin maxLocals).allocate type) := by
  cases a with
  | insertion p =>
    refine OnlyFaults.map fun fault h => ?_
    unfold Insertion.allocate at h
    split at h
    · rename_i fault' hextend
      cases h
      exact SlotRange.onlyFaults_extend _ _ fault hextend
    · cases h
  | extension x =>
    refine OnlyFaults.map fun fault h => ?_
    simp only [Extension.begin, Extension.allocate] at h
    split at h
    · rename_i fault' hextend
      cases h
      exact SlotRange.onlyFaults_extend _ _ fault hextend
    · cases h

theorem onlyFaults_relocate (a : Allocator) (slot : UInt16) :
    OnlyFaults Fault.OfSlots (a.relocate slot) := by
  cases a with
  | extension x => exact onlyFaults_ok _
  | insertion p =>
    simp only [relocate, Insertion.relocate]
    split
    · exact onlyFaults_ok _
    · exact onlyFaults_slot16 _

/-- A frame that cannot be carried over is one of the class. -/
theorem onlyFaults_takeFrame (a : Allocator) (f : CodeFrame) :
    OnlyFaults Fault.OfSlots (a.takeFrame f).2 := by
  cases a with
  | extension x => exact onlyFaults_ok _
  | insertion p =>
    simp only [takeFrame, Insertion.takeFrame]
    split
    · exact onlyFaults_ok _
    · exact onlyFaults_error trivial

end Allocator

namespace MethodInjection

variable {i j : MethodInjection} {events sent : List BodyEvent} {fault : Fault}

theorem onlyFaults_relocated (i : MethodInjection) (e : BodyEvent) :
    OnlyFaults Fault.OfSlots (i.relocated e) := by
  have hslot := i.allocator.onlyFaults_relocate
  cases e with
  | operation op => exact (op.onlyFaults_mapSlotM hslot).map
  | localVariable generic v => exact (hslot v.slot).map
  | annotatedType a => exact (a.onlyFaults_mapSlotsM hslot).map
  | limits maxStack maxLocals => exact (onlyFaults_slot16 _).map
  | _ => exact onlyFaults_ok _

/-- **One event** stops the injection for its slots or as a frame. -/
theorem ofSlots_step (i : MethodInjection) (e : BodyEvent) (h : (step i e).fault = some fault) :
    fault.OfSlots := by
  by_cases he : e.IsStart
  · cases e with
    | start maxStack maxLocals =>
      have hallocate := i.allocator.onlyFaults_allocate maxLocals (.ofBase .int)
      simp only [step, start] at h
      rcases ha : (i.allocator.begin maxLocals).allocate (.ofBase .int) with fault' | ⟨slot, a⟩
      · rw [ha] at h
        cases h
        exact hallocate fault ha
      · rw [ha] at h
        cases h
    | _ => exact he.elim
  · obtain ⟨-, -, hnone, -⟩ | ⟨-, fault', hfault', hcause⟩ := step_cases i he
    · rw [hnone] at h
      cases h
    · rw [hfault'] at h
      cases h
      rcases hcause with hslot | ⟨f, rfl, hframe⟩
      · exact onlyFaults_relocated i e fault hslot
      · exact i.allocator.onlyFaults_takeFrame f fault hframe

/-- **A body** stops the injection for one of its slots or frames. -/
theorem ofSlots_run (h : Stage.run step i events = (j, sent, some fault)) : fault.OfSlots := by
  induction events generalizing i sent with
  | nil => cases h
  | cons e events ih =>
    rw [Stage.run] at h
    cases hstep : (step i e).fault with
    | some fault' =>
      rw [hstep] at h
      cases h
      exact ofSlots_step i e hstep
    | none =>
      rw [hstep] at h
      rcases hrest : Stage.run step (step i e).state events with ⟨k, behind, fault'⟩
      rw [hrest] at h
      cases h
      exact ih hrest

end MethodInjection

end FreshLocal
