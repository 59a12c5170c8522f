import FreshLocal.Proofs.Positions

/-!
# The content of a body

What the events of a body say is independent of the labels and of the order in
which tables and code are interleaved: each label stands for the number of
operations before it. Two streams of events have the same content if they agree
once labels are replaced so.

* `BodyEvent.placeOf`: how many operations stand before a label.
* `PlacedBody`: a body with labels replaced by these numbers.
* `PlacedBody.ofEvents?`: **the content of some events**, if each label in them has a place.
-/

namespace FreshLocal

/-- The name and the type of a local variable, with its range by places. -/
structure PlacedVariable where
  name : PoolIndex
  type : PoolIndex
  start : Nat
  stop : Nat
  slot : UInt16

/-- The content of a body. A place is a number of operations from the start of the body on. -/
structure PlacedBody where
  /-- The limits that the body has in the end. -/
  limits : Option (UInt16 × UInt16)
  operations : List (Operation Nat)
  /-- Each frame with the place of the operation behind it. -/
  frames : List (Nat × Frame String Nat)
  handlers : List (Handler Nat)
  /-- Places and the lines that begin there. -/
  lines : List (Nat × UInt16)
  locals : List PlacedVariable
  genericLocals : List PlacedVariable
  visible : List (AnnotatedType Nat)
  invisible : List (AnnotatedType Nat)
  attributes : List Attribute

namespace BodyEvent

/-- The operations among some events. -/
def operations (events : List BodyEvent) : List (Operation Label) :=
  events.filterMap fun
    | operation op => some op
    | _ => none

theorem mem_operations {events : List BodyEvent} {op : Operation Label} :
    op ∈ operations events ↔ .operation op ∈ events := by
  unfold operations
  rw [List.mem_filterMap]
  constructor
  · rintro ⟨e, he, h⟩
    split at h
    · cases h; exact he
    · cases h
  · intro h; exact ⟨_, h, rfl⟩

/-- How many operations stand before a label. -/
def placeOf (l : Label) : List BodyEvent → Option Nat
  | [] => none
  | .label l' :: rest => if l' = l then some 0 else placeOf l rest
  | .operation _ :: rest => (placeOf l rest).map (· + 1)
  | _ :: rest => placeOf l rest

/-- The labels that an event refers to. -/
def references : BodyEvent → List Label
  | operation op => op.targets
  | lineNumber _ l => [l]
  | frame f => f.positions
  | handler h => h.positions
  | localVariable _ v => [v.start, v.stop]
  | annotatedType a => a.target.positions
  | _ => []

/-- The frame that an event is. -/
def codeFrame? : BodyEvent → Option CodeFrame
  | frame f => some f
  | _ => none

/-- The frames among some events. -/
def frames (events : List BodyEvent) : List CodeFrame := events.filterMap codeFrame?

/-! What an event of one kind holds. -/

def handler? : BodyEvent → Option (Handler Label)
  | handler h => some h
  | _ => none

def line? : BodyEvent → Option (UInt16 × Label)
  | lineNumber line l => some (line, l)
  | _ => none

def local? (generic : Bool) : BodyEvent → Option LocalVariable
  | localVariable isGeneric v => if isGeneric = generic then some v else none
  | _ => none

def annotation? : BodyEvent → Option (AnnotatedType Label)
  | annotatedType a => some a
  | _ => none

def attribute? : BodyEvent → Option Attribute
  | «attribute» a => some a
  | _ => none

def limits? : BodyEvent → Option (UInt16 × UInt16)
  | limits maxStack maxLocals => some (maxStack, maxLocals)
  | _ => none

section Mem

variable {events : List BodyEvent}

theorem mem_handlers {h : Handler Label} :
    h ∈ events.filterMap handler? ↔ .handler h ∈ events := by
  rw [List.mem_filterMap]
  refine ⟨fun ⟨e, he, hp⟩ => ?_, fun h => ⟨_, h, rfl⟩⟩
  cases e <;> cases hp
  exact he

theorem mem_lines {x : UInt16 × Label} :
    x ∈ events.filterMap line? ↔ .lineNumber x.1 x.2 ∈ events := by
  rw [List.mem_filterMap]
  refine ⟨fun ⟨e, he, hp⟩ => ?_, fun h => ⟨_, h, rfl⟩⟩
  cases e <;> cases hp
  exact he

theorem mem_locals {generic : Bool} {v : LocalVariable} :
    v ∈ events.filterMap (local? generic) ↔ .localVariable generic v ∈ events := by
  rw [List.mem_filterMap]
  refine ⟨fun ⟨e, he, hp⟩ => ?_, fun h => ⟨_, h, by rw [local?, if_pos rfl]⟩⟩
  cases e with
  | localVariable isGeneric v' =>
    simp only [local?, Option.ite_none_right_eq_some, Option.some.injEq] at hp
    obtain ⟨rfl, rfl⟩ := hp
    exact he
  | _ => cases hp

theorem mem_annotations {a : AnnotatedType Label} :
    a ∈ events.filterMap annotation? ↔ .annotatedType a ∈ events := by
  rw [List.mem_filterMap]
  refine ⟨fun ⟨e, he, hp⟩ => ?_, fun h => ⟨_, h, rfl⟩⟩
  cases e <;> cases hp
  exact he

theorem mem_attributes {a : Attribute} :
    a ∈ events.filterMap attribute? ↔ .attribute a ∈ events := by
  rw [List.mem_filterMap]
  refine ⟨fun ⟨e, he, hp⟩ => ?_, fun h => ⟨_, h, rfl⟩⟩
  cases e <;> cases hp
  exact he

end Mem

/-- How many operations an event is. -/
def size : BodyEvent → Nat
  | operation _ => 1
  | _ => 0

/-- Each event with the number of operations before it; `n` operations stand before all of them. -/
def numbered : (n : Nat) → List BodyEvent → List (Nat × BodyEvent)
  | _, [] => []
  | n, e :: rest => (n, e) :: numbered (n + e.size) rest

def frame? : Nat × BodyEvent → Option (Nat × CodeFrame)
  | (n, frame f) => some (n, f)
  | _ => none

theorem length_operations_cons (e : BodyEvent) (rest : List BodyEvent) :
    (operations (e :: rest)).length = e.size + (operations rest).length := by
  cases e <;> simp [operations, size, Nat.add_comm]

theorem operations_append (front behind : List BodyEvent) :
    operations (front ++ behind) = operations front ++ operations behind :=
  List.filterMap_append

theorem numbered_append (n : Nat) (front behind : List BodyEvent) :
    numbered n (front ++ behind) =
      numbered n front ++ numbered (n + (operations front).length) behind := by
  induction front generalizing n with
  | nil => rfl
  | cons e front ih =>
    rw [List.cons_append, numbered, numbered, ih, length_operations_cons, Nat.add_assoc]
    rfl

theorem map_snd_numbered (n : Nat) (events : List BodyEvent) :
    (numbered n events).map Prod.snd = events := by
  induction events generalizing n with
  | nil => rfl
  | cons e rest ih => rw [numbered, List.map_cons, ih]

theorem mem_of_mem_numbered {n : Nat} {events : List BodyEvent} {x : Nat × BodyEvent}
    (h : x ∈ numbered n events) : x.2 ∈ events := by
  rw [← map_snd_numbered n events]
  exact List.mem_map_of_mem h

end BodyEvent

/-- The variable with its range by places. -/
def LocalVariable.placed (v : LocalVariable) (place : Label → Nat) : PlacedVariable :=
  ⟨v.name, v.type, place v.start, place v.stop, v.slot⟩

namespace PlacedBody

/-- The content of some events, given the place of each label. -/
def ofEvents (place : Label → Nat) (events : List BodyEvent) : PlacedBody :=
  let annotations := (events.filterMap BodyEvent.annotation?).map (·.map place)
  { limits := (events.filterMap BodyEvent.limits?).getLast?
    operations := (BodyEvent.operations events).map (·.map place)
    frames := ((BodyEvent.numbered 0 events).filterMap BodyEvent.frame?).map
      fun x => (x.1, x.2.map id place)
    handlers := (events.filterMap BodyEvent.handler?).map (·.map place)
    lines := (events.filterMap BodyEvent.line?).map fun x => (place x.2, x.1)
    locals := (events.filterMap (BodyEvent.local? false)).map (·.placed place)
    genericLocals := (events.filterMap (BodyEvent.local? true)).map (·.placed place)
    visible := annotations.filter (·.visible == true)
    invisible := annotations.filter (·.visible == false)
    attributes := events.filterMap BodyEvent.attribute? }

/-- The content of some events, if each label that they refer to is among them. -/
def ofEvents? (events : List BodyEvent) : Option PlacedBody :=
  if (events.flatMap BodyEvent.references).all fun l => (BodyEvent.placeOf l events).isSome then
    some (ofEvents (fun l => (BodyEvent.placeOf l events).getD 0) events)
  else none

/-- Only the places of the labels that the events refer to matter. -/
theorem ofEvents_congr {events : List BodyEvent} {place place' : Label → Nat}
    (h : ∀ e ∈ events, ∀ l ∈ e.references, place l = place' l) :
    ofEvents place events = ofEvents place' events := by
  have hops : ∀ op ∈ BodyEvent.operations events, op.map place = op.map place' := fun op hop =>
    Operation.map_congr (h _ (BodyEvent.mem_operations.1 hop))
  have hframes : ∀ x ∈ (BodyEvent.numbered 0 events).filterMap BodyEvent.frame?,
      (x.1, x.2.map id place) = (x.1, x.2.map id place') := by
    intro x hx
    obtain ⟨⟨n, e⟩, he, hx⟩ := List.mem_filterMap.1 hx
    cases e <;> cases hx
    rw [Frame.map_congr_positions (h _ (BodyEvent.mem_of_mem_numbered he))]
  have hhandlers : ∀ x ∈ events.filterMap BodyEvent.handler?, x.map place = x.map place' :=
    fun x hx => Handler.map_congr (h _ (BodyEvent.mem_handlers.1 hx))
  have hlines : ∀ x ∈ events.filterMap BodyEvent.line?, (place x.2, x.1) = (place' x.2, x.1) := by
    intro x hx
    rw [h _ (BodyEvent.mem_lines.1 hx) _ (by simp [BodyEvent.references])]
  have hlocals : ∀ g, ∀ v ∈ events.filterMap (BodyEvent.local? g),
      v.placed place = v.placed place' := by
    intro g v hv
    have he := BodyEvent.mem_locals.1 hv
    rw [LocalVariable.placed, LocalVariable.placed,
      h _ he v.start (by simp [BodyEvent.references]),
      h _ he v.stop (by simp [BodyEvent.references])]
  have hannotations : ∀ a ∈ events.filterMap BodyEvent.annotation?, a.map place = a.map place' :=
    fun a ha => AnnotatedType.map_congr (h _ (BodyEvent.mem_annotations.1 ha))
  unfold ofEvents
  rw [List.map_congr_left hops, List.map_congr_left hframes, List.map_congr_left hhandlers,
    List.map_congr_left hlines, List.map_congr_left (hlocals false),
    List.map_congr_left (hlocals true), List.map_congr_left hannotations]

/-- **The content of events** is that given by any function that knows the place of each label. -/
theorem ofEvents?_eq_some {events : List BodyEvent} (place : Label → Nat)
    (h : ∀ e ∈ events, ∀ l ∈ e.references, BodyEvent.placeOf l events = some (place l)) :
    ofEvents? events = some (ofEvents place events) := by
  have hplaced : (events.flatMap BodyEvent.references).all
      fun l => (BodyEvent.placeOf l events).isSome := by
    rw [List.all_eq_true]
    intro l hl
    obtain ⟨e, he, hl⟩ := List.mem_flatMap.1 hl
    rw [h e he l hl]
    rfl
  rw [ofEvents?, if_pos hplaced, ofEvents_congr fun e he l hl => ?_]
  rw [h e he l hl, Option.getD_some]

end PlacedBody

end FreshLocal
