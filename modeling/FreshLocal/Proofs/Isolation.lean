import FreshLocal.Proofs.PlacedBody
import FreshLocal.Proofs.Relocation
import Mathlib.Logic.Relation

/-!
# Who touches the new variable

An instruction with a slot touches that slot, and the next one as well if it
loads or stores a `long` or a `double`. The injection looks at the first slot
only. So it keeps the new variable out of reach of the old code, with one
exception: behind the arguments, an access to two slots that starts right below
the boundary still ends right above it, which is now the new variable. A frame
with such a value is refused; an instruction is not.

* `Operation.Touches`, `Operation.Crosses`: the slots of an access.
* `Operation.Executes`: what an operation may do to the variables of a running method.
* `MethodInjection.touches_fresh_iff`: **when the old code touches the new variable**,
  and that it holds -1 for good otherwise.
-/

namespace FreshLocal

namespace Instruction

/-- How many slots an access to a local variable takes. -/
def accessWidth : Instruction → Nat
  | load kind _ | store kind _ => kind.width
  | _ => 1

/-- Does the instruction read or write a slot? -/
def Touches (i : Instruction) (n : Nat) : Prop :=
  ∃ slot ∈ i.slot?, slot.toNat ≤ n ∧ n < slot.toNat + i.accessWidth

/-- Does an access start below a slot and end above it? -/
def Crosses (i : Instruction) (boundary : Nat) : Prop :=
  ∃ slot ∈ i.slot?, slot.toNat < boundary ∧ boundary < slot.toNat + i.accessWidth

/-- Moving the slot of an instruction changes nothing else. -/
theorem mapSlotM_eq_ok {f : UInt16 → Except Fault UInt16} {i i' : Instruction}
    (h : i.mapSlotM f = .ok i') : i'.accessWidth = i.accessWidth ∧
      ((i.slot? = none ∧ i' = i) ∨
        ∃ slot slot', i.slot? = some slot ∧ f slot = .ok slot' ∧ i'.slot? = some slot') := by
  cases i with
  | load kind slot | store kind slot | iinc slot amount | ret slot =>
    obtain ⟨slot', hf, rfl⟩ := Except.map_eq_ok.1 h
    exact ⟨rfl, .inr ⟨slot, slot', rfl, hf, rfl⟩⟩
  | _ => cases h; exact ⟨rfl, .inl ⟨rfl, rfl⟩⟩

end Instruction

namespace Operation

variable {π : Type}

/-- Does the operation read or write a slot? -/
def Touches : Operation π → Nat → Prop
  | plain i, n => i.Touches n
  | branch _, _ => False

/-- Does an access start below a slot and end above it? -/
def Crosses : Operation π → Nat → Prop
  | plain i, boundary => i.Crosses boundary
  | branch _, _ => False

end Operation

/-- The operand stack and the local variables of a method that runs; values are of type `α`. -/
structure Activation (α : Type) where
  stack : List α
  locals : Nat → α

/-- What an operation may do to a method that runs. Of the stack it says only what the setting of
the new variable needs; where the method goes on is left open. -/
def Operation.Executes {π α : Type} (int : Int32 → α) (s t : Activation α) : Operation π → Prop
  | .plain (.nullary op) => t.locals = s.locals ∧ (op = .iconstM1 → t.stack = int (-1) :: s.stack)
  | .plain (.store .int slot) =>
    ∃ v, s.stack = v :: t.stack ∧ t.locals = Function.update s.locals slot.toNat v
  | .plain i => ∀ n, ¬ i.Touches n → t.locals n = s.locals n
  | .branch _ => t.locals = s.locals

/-- An operation changes no slot that it does not touch. -/
theorem Operation.Executes.locals_eq {π α : Type} {int : Int32 → α} {s t : Activation α}
    {op : Operation π} {n : Nat} (h : op.Executes int s t) (hn : ¬ op.Touches n) :
    t.locals n = s.locals n := by
  unfold Executes at h
  split at h
  · rw [h.1]
  · rename_i slot
    obtain ⟨v, -, h⟩ := h
    rw [h, Function.update_of_ne]
    rintro rfl
    exact hn ⟨slot, rfl, Nat.le_refl _, Nat.lt_succ_self _⟩
  · exact h n hn
  · rw [h]

/-- **The slots of other operations keep their values**, in whatever order the operations run. -/
theorem Operation.locals_eq_of_reachable {π α : Type} {int : Int32 → α} {s t : Activation α}
    {ops : List (Operation π)} {n : Nat} (hn : ∀ op ∈ ops, ¬ op.Touches n)
    (h : Relation.ReflTransGen (fun s t => ∃ op ∈ ops, op.Executes int s t) s t) :
    t.locals n = s.locals n := by
  induction h with
  | refl => rfl
  | tail _ hstep ih =>
    obtain ⟨op, hop, hex⟩ := hstep
    rw [hex.locals_eq (hn op hop), ih]

/-- If two lists agree in a property place by place, one has an element with it if the other has. -/
theorem exists_iff_of_forall₂ {α β : Type} {P : α → Prop} {Q : β → Prop} {xs : List α}
    {ys : List β} (h : List.Forall₂ (fun x y => Q y ↔ P x) xs ys) :
    (∃ x ∈ xs, P x) ↔ ∃ y ∈ ys, Q y := by
  induction h with
  | nil => simp
  | cons hxy _ ih => simp only [List.exists_mem_cons_iff, ih, hxy]

namespace MethodInjection

/-- The place of an operation's slot decides whether it touches the new variable. -/
theorem touches_moved_iff {first : Nat} {a : Allocator} {op op' : Operation Label}
    (ha : ∀ slot, a.moved slot = if slot < first then slot else slot + 1)
    (h : op.mapSlotM a.relocate = .ok op') : op'.Touches first ↔ op.Crosses first := by
  cases op with
  | branch b => cases h; rfl
  | plain i =>
    obtain ⟨i', hi, rfl⟩ := Except.map_eq_ok.1 h
    simp only [Operation.Touches, Operation.Crosses, Instruction.Touches, Instruction.Crosses]
    obtain ⟨hw, ⟨hs, rfl⟩ | ⟨slot, slot', hs, hr, hs'⟩⟩ := Instruction.mapSlotM_eq_ok hi
    · simp [hs]
    · have hmoved := Allocator.toNat_of_relocate hr
      rw [ha] at hmoved
      simp only [hs, hs', hw, Option.mem_def, Option.some.injEq, exists_eq_left', hmoved]
      split <;> omega

/-- An operation whose slot stays where it is touches what it touched before. -/
theorem touches_iff_of_moved_eq {n : Nat} {a : Allocator} {op op' : Operation Label}
    (ha : ∀ slot, a.moved slot = slot) (h : op.mapSlotM a.relocate = .ok op') :
    op'.Touches n ↔ op.Touches n := by
  cases op with
  | branch b => cases h; rfl
  | plain i =>
    obtain ⟨i', hi, rfl⟩ := Except.map_eq_ok.1 h
    simp only [Operation.Touches, Instruction.Touches]
    obtain ⟨hw, ⟨hs, rfl⟩ | ⟨slot, slot', hs, hr, hs'⟩⟩ := Instruction.mapSlotM_eq_ok hi
    · rfl
    · have hmoved := Allocator.toNat_of_relocate hr
      rw [ha] at hmoved
      simp only [hs, hs', hw, Option.mem_def, Option.some.injEq, exists_eq_left', hmoved]

/-- Operations become operations, and nothing else does. -/
theorem operations_carried {R : Allocator → Prop} {events sent : List BodyEvent}
    (h : List.Forall₂ (fun e e' => ∃ a, R a ∧ BodyEvent.Carried a e e') events sent) :
    List.Forall₂ (fun op op' => ∃ a : Allocator, R a ∧ op.mapSlotM a.relocate = .ok op')
      (BodyEvent.operations events) (BodyEvent.operations sent) := by
  induction h with
  | nil => exact .nil
  | @cons e e' _ _ hcarried _ ih =>
    obtain ⟨a, ha, hcarried⟩ := hcarried
    cases e with
    | operation op =>
      obtain ⟨op', hop, rfl⟩ := hcarried
      exact .cons ⟨a, ha, hop⟩ ih
    | localVariable g v => obtain ⟨_, _, rfl⟩ := hcarried; exact ih
    | annotatedType x => obtain ⟨_, _, rfl⟩ := hcarried; exact ih
    | frame f => obtain ⟨_, _, rfl⟩ := hcarried; exact ih
    | limits s l => obtain ⟨_, _, rfl⟩ := hcarried; exact ih
    | start _ _ | label _ | lineNumber _ _ | handler _ | «attribute» _ => cases hcarried; exact ih

open BodyEvent in
/-- **When the old code touches the new variable.** Let the injection take every event of a body,
and let no operation of the body touch a slot that the body does not declare. Then an operation
behind the setting of the new variable touches it if and only if new variables go behind the
arguments and an access of the body crosses the first slot behind the arguments. Without such an
access the variable holds -1 from its setting on, whatever the operations behind it do. -/
theorem touches_fresh_iff (options : Options) (m : DeclaredMethod) (b : Body) {i : MethodInjection}
    {sent : List BodyEvent}
    (h : Stage.run step (.ofAllocator (options.allocator m)) b.events.1 = (i, sent, none))
    (hb : ∀ op ∈ operations b.events.1, ∀ n, op.Touches n → n < b.maxLocals.toNat) :
    let reached := options.placement = .behindArguments ∧
      ∃ op ∈ operations b.events.1, op.Crosses m.first
    ∃ fresh rest, i.fresh = some fresh ∧
      sent = .start b.maxStack b.maxLocals :: .operation (.plain (.nullary .iconstM1)) ::
        .operation (.plain (.store .int fresh)) :: rest ∧
      ((∃ op ∈ operations rest, op.Touches fresh.toNat) ↔ reached) ∧
      (¬ reached → ∀ (α : Type) (int : Int32 → α) (s₀ s₁ s₂ s : Activation α),
        (Operation.plain (.nullary .iconstM1) : Operation Label).Executes int s₀ s₁ →
        (Operation.plain (.store .int fresh) : Operation Label).Executes int s₁ s₂ →
        Relation.ReflTransGen (fun s t => ∃ op ∈ operations rest, op.Executes int s t) s₂ s →
        s.locals fresh.toNat = int (-1)) := by
  intro reached
  obtain ⟨body, hbody, hstart⟩ := b.events_eq
  rw [hbody] at h
  obtain ⟨fresh, a, rest, ha, hrun, rfl⟩ := run_start h
  obtain ⟨hfresh, -, hall⟩ := run_carried (P := fun a' => a'.moved = a.moved) hstart
    (fun a' f _ ha' => (a'.moved_takeFrame f).trans ha') rfl hrun
  have hops := operations_carried (R := fun a' => a'.moved = a.moved) hall
  have hbody_ops : operations b.events.1 = operations body := by rw [hbody]; rfl
  have hmoved := options.allocate_int m ha
  have key : (∃ op ∈ operations rest, op.Touches fresh.toNat) ↔ reached := by
    cases hp : options.placement with
    | behindArguments =>
      rw [hp] at hmoved
      obtain ⟨hslot, hmoved⟩ := hmoved
      simp only [reached, hp, true_and, hbody_ops, hslot]
      have hiff : List.Forall₂ (fun op op' => Operation.Touches op' m.first ↔
          Operation.Crosses op m.first) (operations body) (operations rest) :=
        hops.imp fun op op' ⟨a', ha', hop⟩ =>
          touches_moved_iff (fun slot => by rw [ha', hmoved]) hop
      exact (exists_iff_of_forall₂ hiff).symm
    | behindAll =>
      rw [hp] at hmoved
      obtain ⟨rfl, hmoved⟩ := hmoved
      simp only [reached, hp, reduceCtorEq, false_and, iff_false]
      have hiff : List.Forall₂ (fun op op' => Operation.Touches op' b.maxLocals.toNat ↔
          Operation.Touches op b.maxLocals.toNat) (operations body) (operations rest) :=
        hops.imp fun op op' ⟨a', ha', hop⟩ =>
          touches_iff_of_moved_eq (fun slot => by rw [ha', hmoved]) hop
      rw [← exists_iff_of_forall₂ hiff]
      rintro ⟨op, hop, htouch⟩
      exact absurd (hb op (hbody_ops ▸ hop) _ htouch) (Nat.lt_irrefl _)
  refine ⟨fresh, rest, hfresh, rfl, key, ?_⟩
  intro hnot α int s₀ s₁ s₂ s hpush hset hrest
  have huntouched : ∀ op ∈ operations rest, ¬ op.Touches fresh.toNat :=
    fun op hop ht => hnot (key.1 ⟨op, hop, ht⟩)
  obtain ⟨v, hstack, hlocals⟩ := hset
  rw [hpush.2 rfl] at hstack
  obtain ⟨rfl, -⟩ := List.cons.inj hstack
  rw [Operation.locals_eq_of_reachable huntouched hrest, hlocals, Function.update_self]

/-- A body that puts a `long` over its only argument and the slot behind it. -/
def crossingBody : Body where
  maxStack := 2
  maxLocals := 2
  length := 3
  operations := [(0, .plain (.nullary ⟨0x09, by decide⟩)), (1, .plain (.store .long 0)),
    (2, .branch (.exit .returnVoid))]
  handlers := []
  frames := []
  lines := []
  locals := []
  genericLocals := []
  annotations := []
  attributes := []

theorem crossingBody_events : crossingBody.events.1 =
    [.start 2 2, .operation (.plain (.nullary ⟨0x09, by decide⟩)),
      .operation (.plain (.store .long 0)), .operation (.branch (.exit .returnVoid)),
      .limits 2 2] := by
  have hl : crossingBody.labels = ∅ := by
    have hr : crossingBody.references = [] := rfl
    simp only [Body.labels, Body.labelled, hr, List.mergeSort_nil]
    rfl
  simp only [Body.events, hl]
  simp [crossingBody, Body.firstEvents, Body.attachFrames, Body.attachFramesOnto,
    Body.operationEvents, Body.lastEvents, Body.linesAt]
  exact ⟨rfl, rfl, rfl⟩

/-- The store of the `long` goes through and overwrites the new variable. -/
theorem touches_fresh_crossing : ∃ i sent fresh rest,
    Stage.run step (.ofAllocator (Options.standard.allocator Insertion.sampleMethod))
      crossingBody.events.1 = (i, sent, none) ∧
    (∀ op ∈ BodyEvent.operations crossingBody.events.1, ∀ n, op.Touches n →
      n < crossingBody.maxLocals.toNat) ∧
    i.fresh = some fresh ∧ sent = .start 2 2 :: .operation (.plain (.nullary .iconstM1)) ::
      .operation (.plain (.store .int fresh)) :: rest ∧
    ∃ op ∈ BodyEvent.operations rest, op.Touches fresh.toNat := by
  obtain ⟨i, sent, hrun⟩ : ∃ i sent,
      Stage.run step (.ofAllocator (Options.standard.allocator Insertion.sampleMethod))
        crossingBody.events.1 = (i, sent, none) := by
    rw [crossingBody_events]
    exact ⟨_, _, rfl⟩
  have hops : BodyEvent.operations crossingBody.events.1 =
      [.plain (.nullary ⟨0x09, by decide⟩), .plain (.store .long 0),
        .branch (.exit .returnVoid)] := by
    rw [crossingBody_events]
    rfl
  have hdeclared : ∀ op ∈ BodyEvent.operations crossingBody.events.1, ∀ n, op.Touches n →
      n < crossingBody.maxLocals.toNat := by
    rw [hops]
    simp [Operation.Touches, Instruction.Touches, Instruction.slot?, Instruction.accessWidth,
      ValueKind.width, crossingBody]
  obtain ⟨fresh, rest, hfresh, hsent, hiff, -⟩ :=
    touches_fresh_iff Options.standard Insertion.sampleMethod crossingBody hrun hdeclared
  refine ⟨i, sent, fresh, rest, hrun, hdeclared, hfresh, hsent, hiff.2 ⟨rfl, ?_⟩⟩
  rw [hops]
  exact ⟨.plain (.store .long 0), by simp, 0, rfl, by decide, by decide⟩

end MethodInjection

end FreshLocal
