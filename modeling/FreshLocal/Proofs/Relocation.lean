import FreshLocal.Injection.Method
import FreshLocal.Proofs.Allocation
import FreshLocal.Proofs.Results
import FreshLocal.Proofs.StageRun

/-!
# The events of a body behind the start

Behind the start of a body the injection answers each event with one event of the
same kind. Its slots are moved as the allocator says, and the allocator moves
them in the same way until the body ends: a frame changes what the allocator
remembers of the locals, but not where it puts them.

* `Allocator.moved`: the new place of a slot.
* `Body.events_eq`: a body starts once.
* `BodyEvent.Carried`: what becomes of one event.
* `MethodInjection.step_cases`: all that a step behind the start can do.
* `MethodInjection.run_carried`: **what becomes of the events of a body**.
* `MethodInjection.run_start`: what the start of a body becomes.
-/

namespace FreshLocal

namespace Allocator

/-- The new place of a slot, if 16 bits can hold it. -/
def moved : Allocator → Nat → Nat
  | insertion p, slot => if slot < p.boundary then slot else slot + p.range.width
  | extension _, slot => slot

theorem toNat_of_relocate {a : Allocator} {slot slot' : UInt16} (h : a.relocate slot = .ok slot') :
    slot'.toNat = a.moved slot.toNat := by
  cases a with
  | insertion p =>
    obtain ⟨hlt, hs⟩ | ⟨hle, hs⟩ := Insertion.relocate_eq_ok.1 h
    · rw [hs, moved, if_pos hlt]
    · rw [hs, moved, if_neg (Nat.not_lt.2 hle)]
  | extension x => cases h; rfl

theorem moved_takeFrame (a : Allocator) (f : CodeFrame) : (a.takeFrame f).1.moved = a.moved := by
  cases a with
  | insertion p =>
    funext slot
    simp only [takeFrame, moved, Insertion.takeFrame]
    split <;> rfl
  | extension x => rfl

end Allocator

/-- The event that starts a body. -/
def BodyEvent.IsStart : BodyEvent → Prop
  | start _ _ => True
  | _ => False

namespace Body

variable (b : Body) (label : Nat → Label)

theorem not_isStart_of_mem_operationEvents {labels : Std.HashMap Nat Label}
    {lines : Std.HashMap Nat (List UInt16)} {at_ : Nat × Operation Nat × List (Frame String UInt16)}
    {e : BodyEvent} (he : e ∈ operationEvents label labels lines at_) : ¬ e.IsStart := by
  simp only [operationEvents, List.mem_append, List.mem_map, List.mem_singleton] at he
  rcases he with ((⟨l, -, rfl⟩ | ⟨n, -, rfl⟩) | ⟨f, -, rfl⟩) | rfl <;> exact id

theorem not_isStart_of_mem_lastEvents {labels : Std.HashMap Nat Label} {e : BodyEvent}
    (he : e ∈ b.lastEvents label labels) : ¬ e.IsStart := by
  simp only [lastEvents, List.mem_append, List.mem_map, List.mem_singleton] at he
  rcases he with
    ((((⟨l, -, rfl⟩ | ⟨v, -, rfl⟩) | ⟨v, -, rfl⟩) | ⟨a, -, rfl⟩) | ⟨a, -, rfl⟩) | rfl <;>
    exact id

/-- **The events of a body** start it once. -/
theorem events_eq : ∃ rest, b.events.1 = .start b.maxStack b.maxLocals :: rest ∧
    ∀ e ∈ rest, ¬ e.IsStart := by
  unfold events
  simp only [firstEvents, List.cons_append]
  split
  · refine ⟨_, rfl, fun e he => ?_⟩
    rw [List.mem_append, List.mem_map, List.mem_flatMap] at he
    obtain ⟨h, -, rfl⟩ | ⟨at_, -, he⟩ := he
    · exact id
    · exact not_isStart_of_mem_operationEvents _ he
  · refine ⟨_, rfl, fun e he => ?_⟩
    rw [List.mem_append, List.mem_append, List.mem_map, List.mem_flatMap] at he
    obtain (⟨h, -, rfl⟩ | ⟨at_, -, he⟩) | he := he
    · exact id
    · exact not_isStart_of_mem_operationEvents _ he
    · exact b.not_isStart_of_mem_lastEvents _ he

end Body

/-- What the injection makes of one event, if it does not refuse it. -/
def BodyEvent.Carried (a : Allocator) : BodyEvent → BodyEvent → Prop
  | operation op, e => ∃ op', op.mapSlotM a.relocate = .ok op' ∧ e = operation op'
  | localVariable isGeneric v, e =>
    ∃ slot, a.relocate v.slot = .ok slot ∧ e = localVariable isGeneric { v with slot }
  | annotatedType x, e => ∃ x', x.mapSlotsM a.relocate = .ok x' ∧ e = annotatedType x'
  | frame f, e => ∃ f', (a.takeFrame f).2 = .ok f' ∧ e = frame f'
  | limits maxStack maxLocals, e =>
    ∃ n, a.limit maxLocals = .ok n ∧ e = limits (max maxStack 1) n
  | other, e => e = other

namespace MethodInjection

variable {i j : MethodInjection} {e : BodyEvent} {events sent : List BodyEvent}

/-- An event with slots becomes one event. -/
theorem relocated_eq_ok {e' : BodyEvent} (he : ∀ f, e ≠ .frame f) (h : i.relocated e = .ok e') :
    e.Carried i.allocator e' := by
  cases e with
  | operation op => obtain ⟨op', hm, rfl⟩ := Except.map_eq_ok.1 h; exact ⟨op', hm, rfl⟩
  | localVariable g v => obtain ⟨slot, hm, rfl⟩ := Except.map_eq_ok.1 h; exact ⟨slot, hm, rfl⟩
  | annotatedType x => obtain ⟨x', hm, rfl⟩ := Except.map_eq_ok.1 h; exact ⟨x', hm, rfl⟩
  | limits s l => obtain ⟨n, hm, rfl⟩ := Except.map_eq_ok.1 h; exact ⟨n, hm, rfl⟩
  | frame f => exact absurd rfl (he f)
  | start _ _ | label _ | lineNumber _ _ | handler _ | «attribute» _ => cases h; rfl

/-- Events other than the start and frames are sent at their new places, or not at all. -/
theorem step_of_relocated (he : ¬ e.IsStart) (hf : ∀ f, e ≠ .frame f) :
    (∀ e', i.relocated e = .ok e' → step i e = .send i e') ∧
      ∀ fault, i.relocated e = .error fault → step i e = .stop i fault := by
  cases e with
  | start _ _ => exact absurd trivial he
  | frame f => exact absurd rfl (hf f)
  | _ => exact ⟨fun _ h => by simp only [step, h], fun _ h => by simp only [step, h]⟩

/-- **One event becomes one event**, and the allocator has heard of a frame if it is one; or it is
not sent, since a slot has no new place or the frame cannot be carried over. -/
theorem step_cases (i : MethodInjection) (he : ¬ e.IsStart) :
    (∃ e', (step i e).events = [e'] ∧ (step i e).fault = none ∧ e.Carried i.allocator e' ∧
      (step i e).state.fresh = i.fresh ∧
      ((step i e).state.allocator = i.allocator ∨
        ∃ f, e = .frame f ∧ (step i e).state.allocator = (i.allocator.takeFrame f).1)) ∨
    (step i e).events = [] ∧ ∃ fault, (step i e).fault = some fault ∧
      (i.relocated e = .error fault ∨
        ∃ f, e = .frame f ∧ (i.allocator.takeFrame f).2 = .error fault) := by
  by_cases hf : ∃ f, e = .frame f
  · obtain ⟨f, rfl⟩ := hf
    rcases htaken : i.allocator.takeFrame f with ⟨a, fault | f'⟩
    · simp only [step, htaken]
      exact .inr ⟨rfl, fault, rfl, .inr ⟨f, rfl, by rw [htaken]⟩⟩
    · simp only [step, htaken]
      exact .inl ⟨.frame f', rfl, rfl, ⟨f', by rw [htaken], rfl⟩, rfl,
        .inr ⟨f, rfl, by rw [htaken]; rfl⟩⟩
  · have hother : ∀ f, e ≠ .frame f := fun f hef => hf ⟨f, hef⟩
    obtain ⟨hsend, hstop⟩ := step_of_relocated (i := i) he hother
    cases hr : i.relocated e with
    | ok e' =>
      rw [hsend e' hr]
      exact .inl ⟨e', rfl, rfl, relocated_eq_ok hother hr, rfl, .inl rfl⟩
    | error fault =>
      rw [hstop fault hr]
      exact .inr ⟨rfl, fault, rfl, .inl rfl⟩

/-- An event that does not stop the injection becomes one event. -/
theorem step_carried (he : ¬ e.IsStart) (h : (step i e).fault = none) :
    ∃ e', (step i e).events = [e'] ∧ e.Carried i.allocator e' ∧
      (step i e).state.fresh = i.fresh ∧
      ((step i e).state.allocator = i.allocator ∨
        ∃ f, e = .frame f ∧ (step i e).state.allocator = (i.allocator.takeFrame f).1) := by
  rcases step_cases i he with ⟨e', hevents, -, hcarried⟩ | ⟨-, fault, hfault, -⟩
  · exact ⟨e', hevents, hcarried⟩
  · rw [hfault] at h
    cases h

/-- **What becomes of the events behind the start**: each becomes one event, and what frames do not
change of the allocator holds from the first to the last. -/
theorem run_carried {P : Allocator → Prop} (he : ∀ e ∈ events, ¬ e.IsStart)
    (hP : ∀ a f, .frame f ∈ events → P a → P (a.takeFrame f).1) (hi : P i.allocator)
    (h : Stage.run step i events = (j, sent, none)) :
    j.fresh = i.fresh ∧ P j.allocator ∧
      List.Forall₂ (fun e e' => ∃ a : Allocator, P a ∧ e.Carried a e') events sent := by
  induction events generalizing i sent with
  | nil => obtain ⟨rfl, rfl⟩ := Stage.run_nil.1 h; exact ⟨rfl, hi, .nil⟩
  | cons e rest ih =>
    obtain ⟨hf, behind, hrest, rfl⟩ := Stage.run_cons.1 h
    obtain ⟨e', hsent, hcarried, hfresh, hnext⟩ := step_carried (he e (by simp)) hf
    have hi' : P (step i e).state.allocator := by
      obtain hsame | ⟨f, rfl, htaken⟩ := hnext
      · rw [hsame]; exact hi
      · rw [htaken]; exact hP _ f (by simp) hi
    obtain ⟨hfresh', hj, hall⟩ := ih (fun e h => he e (by simp [h]))
      (fun a f hmem => hP a f (by simp [hmem])) hi' hrest
    rw [hsent]
    exact ⟨hfresh'.trans hfresh, hj, .cons ⟨_, hi, hcarried⟩ hall⟩

/-- The start of a body is sent in front of two instructions, or stops the injection. -/
theorem step_start (maxStack maxLocals : UInt16) : ∃ behind : List BodyEvent,
    (step i (.start maxStack maxLocals)).events = .start maxStack maxLocals :: behind ∧
      ∀ e ∈ behind, ∃ op, e = .operation op := by
  simp only [step, start]
  rcases ha : (i.allocator.begin maxLocals).allocate (.ofBase .int) with fault | ⟨slot, a⟩
  · exact ⟨[], rfl, fun e he => (List.not_mem_nil he).elim⟩
  · refine ⟨_, rfl, fun e he => ?_⟩
    obtain rfl | he := List.mem_cons.1 he
    · exact ⟨_, rfl⟩
    · exact ⟨_, List.mem_singleton.1 he⟩

/-- **The start of a body** goes on with the two instructions that set the new variable. -/
theorem run_start {maxStack maxLocals : UInt16} {rest : List BodyEvent}
    (h : Stage.run step i (.start maxStack maxLocals :: rest) = (j, sent, none)) :
    ∃ fresh a behind, (i.allocator.begin maxLocals).allocate (.ofBase .int) = .ok (fresh, a) ∧
      Stage.run step ⟨a, some fresh⟩ rest = (j, behind, none) ∧
      sent = .start maxStack maxLocals :: .operation (.plain (.nullary .iconstM1)) ::
        .operation (.plain (.store .int fresh)) :: behind := by
  obtain ⟨hf, behind, hrest, rfl⟩ := Stage.run_cons.1 h
  rcases ha : (i.allocator.begin maxLocals).allocate (.ofBase .int) with fault | ⟨fresh, a⟩
  · simp [step, start, ha] at hf
  · simp only [step, start, ha, Step.events] at hrest ⊢
    exact ⟨fresh, a, behind, rfl, hrest, rfl⟩

end MethodInjection

/-- The slot of a variable put into a method, and how old slots make room for it. -/
theorem Options.allocate_int (options : Options) (m : DeclaredMethod) {maxLocals fresh : UInt16}
    {a : Allocator}
    (h : ((options.allocator m).begin maxLocals).allocate (.ofBase .int) = .ok (fresh, a)) :
    match options.placement with
    | .behindArguments => fresh.toNat = m.first ∧
        ∀ slot, a.moved slot = if slot < m.first then slot else slot + 1
    | .behindAll => fresh = maxLocals ∧ ∀ slot, a.moved slot = slot := by
  cases hp : options.placement with
  | behindArguments =>
    simp only [allocator, hp, Allocator.begin, Allocator.allocate] at h ⊢
    obtain ⟨⟨slot, q⟩, hq, h⟩ := Except.map_eq_ok.1 h
    obtain ⟨hroom, rfl, rfl⟩ := Insertion.allocate_eq_ok.1 hq
    cases h
    have hfirst : m.first + 1 ≤ 65535 := hroom
    refine ⟨?_, fun slot => rfl⟩
    -- behind the arguments there is room for one slot, so its number is one of 16 bits
    change (UInt16.ofNat m.first).toNat = m.first
    rw [UInt16.toNat_ofNat']
    omega
  | behindAll =>
    simp only [allocator, hp, Allocator.begin, Allocator.allocate, Extension.allocate,
      Extension.begin] at h ⊢
    obtain ⟨⟨slot, x⟩, hx, h⟩ := Except.map_eq_ok.1 h
    cases h
    split at hx
    · cases hx
    · rename_i s r hr
      cases hx
      simp only [SlotRange.extend] at hr
      split at hr
      · cases hr
        refine ⟨?_, fun slot => rfl⟩
        simp [SlotRange.stop, SlotRange.emptyAt]
      · cases hr

end FreshLocal
