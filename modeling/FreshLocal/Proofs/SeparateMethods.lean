import FreshLocal.Proofs.Fidelity
import FreshLocal.Proofs.RepeatedInjection

/-!
# One method after the other

The injection keeps nothing of a method beyond its end. So a class may be sent as
items in any order, each a field, an attribute or a method, and what becomes of
an item does not depend on the items around it. In a method, the new variable is
set behind the start, and then each event becomes one event: the slots that it
names go to their new places, which are the same for all events of the method, and
frames go through the allocator one after the other.

**Argument.** Between two items the injection is in the state in which the header
of the class left it, so the runs over the items are independent. Inside a
method, a frame changes what the allocator remembers, but neither where it puts
slots nor how many it added; this is the invariant along the events.

* `BodyEvent.Placed`: an event with its slots at new places.
* `BodyEvent.Threaded`: all events of a body, with the frames in a row.
* `ClassItem`: a part of a class; `ClassItem.sent`: what the injection makes of it alone.
* `ClassInjection.feed_items`: **the methods of a class are handled on their own**.
-/

namespace FreshLocal

/-! ## The slots of an event -/

/-- The target with other slots. -/
def AnnotationTarget.withSlots {π : Type} (slots : List UInt16) :
    AnnotationTarget π → AnnotationTarget π
  | localVariable isResource ranges =>
    localVariable isResource (List.zipWith (fun r slot => { r with slot }) ranges slots)
  | target => target

/-- Moving the slots of a target changes nothing else. -/
theorem AnnotationTarget.eq_withSlots {π : Type} {f : UInt16 → Except Fault UInt16}
    {target target' : AnnotationTarget π} (h : target.mapSlotsM f = .ok target') :
    target' = target.withSlots target'.slots := by
  cases target with
  | localVariable isResource ranges =>
    obtain ⟨ranges', hranges, rfl⟩ := Except.map_eq_ok.1 h
    have hzip : List.Forall₂ (fun r r' : LocalRange π => r' = { r with slot := r'.slot })
        ranges ranges' := by
      refine (mapM_eq_ok.1 hranges).imp fun r r' hr => ?_
      obtain ⟨slot, -, hr⟩ := Except.bind_eq_ok.1 hr
      cases hr
      rfl
    have heq : List.zipWith (fun (r : LocalRange π) slot => { r with slot }) ranges
        (ranges'.map LocalRange.slot) = ranges' := by
      clear hranges h
      induction hzip with
      | nil => rfl
      | cons hr _ ih => rw [List.map_cons, List.zipWith_cons_cons, ih, ← hr]
    simp only [slots, withSlots, heq]
  | handler _ | instruction _ _ | typeArgument _ _ _ => cases h; rfl

namespace BodyEvent

/-- The slots that an event names, in their order. -/
def slots : BodyEvent → List UInt16
  | operation (.plain i) => i.slot?.toList
  | localVariable _ v => [v.slot]
  | annotatedType a => a.target.slots
  | _ => []

/-- The event with other slots, as many as it names. -/
def withSlots : BodyEvent → List UInt16 → BodyEvent
  | operation (.plain (.load kind _)), [slot] => operation (.plain (.load kind slot))
  | operation (.plain (.store kind _)), [slot] => operation (.plain (.store kind slot))
  | operation (.plain (.iinc _ amount)), [slot] => operation (.plain (.iinc slot amount))
  | operation (.plain (.ret _)), [slot] => operation (.plain (.ret slot))
  | localVariable isGeneric v, [slot] => localVariable isGeneric { v with slot }
  | annotatedType a, slots => annotatedType { a with target := a.target.withSlots slots }
  | e, _ => e

/-- **An event whose slots are moved**, and nothing else of it. The limits count the new one. -/
def Placed (place : Nat → Nat) : BodyEvent → BodyEvent → Prop
  | limits maxStack maxLocals, e' =>
    ∃ n : UInt16, n.toNat = maxLocals.toNat + 1 ∧ e' = limits (max maxStack 1) n
  | e, e' => ∃ slots, List.Forall₂ (fun s s' => s'.toNat = place s.toNat) e.slots slots ∧
      e' = e.withSlots slots

/-- **One event for each event of a body**, in the same order. The allocator hears of the frames one
after the other; all other events have their slots moved in the same way. -/
inductive Threaded (place : Nat → Nat) : Allocator → List BodyEvent → List BodyEvent → Prop
  | nil (a : Allocator) : Threaded place a [] []
  | frame {a a' : Allocator} {f f' : CodeFrame} {rest rest' : List BodyEvent}
      (taken : a.takeFrame f = (a', .ok f')) (behind : Threaded place a' rest rest') :
      Threaded place a (.frame f :: rest) (.frame f' :: rest')
  | other {a : Allocator} {e e' : BodyEvent} {rest rest' : List BodyEvent}
      (notFrame : ∀ f, e ≠ .frame f) (placed : e.Placed place e')
      (behind : Threaded place a rest rest') : Threaded place a (e :: rest) (e' :: rest')

variable {e e' : BodyEvent} {a : Allocator} {place : Nat → Nat} {events sent : List BodyEvent}

/-- What the allocator makes of an event that is not a frame. -/
theorem Carried.placed (hf : ∀ f, e ≠ .frame f) (hmoved : a.moved = place) (hwidth : a.width = 1)
    (h : e.Carried a e') : e.Placed place e' := by
  have hslot : ∀ {s s' : UInt16}, a.relocate s = .ok s' → s'.toNat = place s.toNat := by
    intro s s' hs
    rw [← hmoved]
    exact Allocator.toNat_of_relocate hs
  cases e with
  | frame f => exact absurd rfl (hf f)
  | operation op =>
    obtain ⟨op', hop, rfl⟩ := h
    cases op with
    | branch b => cases hop; exact ⟨[], .nil, rfl⟩
    | plain i =>
      obtain ⟨i', hi, rfl⟩ := Except.map_eq_ok.1 hop
      cases i with
      | load _ _ | store _ _ | iinc _ _ | ret _ =>
        obtain ⟨s', hs, rfl⟩ := Except.map_eq_ok.1 hi
        exact ⟨[s'], .cons (hslot hs) .nil, rfl⟩
      | _ => cases hi; exact ⟨[], .nil, rfl⟩
  | localVariable isGeneric v =>
    obtain ⟨s', hs, rfl⟩ := h
    exact ⟨[s'], .cons (hslot hs) .nil, rfl⟩
  | annotatedType x =>
    obtain ⟨x', hx, rfl⟩ := h
    refine ⟨x'.target.slots, (AnnotatedType.slots_of_mapSlotsM hx).imp fun _ _ => hslot, ?_⟩
    obtain ⟨target', htarget, hx⟩ := Except.bind_eq_ok.1 hx
    cases hx
    show annotatedType { x with target := target' } =
      annotatedType { x with target := x.target.withSlots target'.slots }
    rw [← AnnotationTarget.eq_withSlots htarget]
  | limits s l =>
    obtain ⟨n, hn, rfl⟩ := h
    refine ⟨n, ?_, rfl⟩
    rw [Allocator.limit_eq_ok hn, hwidth]
  | start _ _ | label _ | lineNumber _ _ | handler _ | «attribute» _ =>
    cases h
    exact ⟨[], .nil, rfl⟩

end BodyEvent

/-! ## The body of a method -/

namespace Options

variable {options : Options} {m : DeclaredMethod} {maxLocals fresh : UInt16} {a : Allocator}

/-- The slot of the new variable of a method that declares some slots. -/
def freshSlot (options : Options) (m : DeclaredMethod) (maxLocals : UInt16) : Nat :=
  match options.placement with
  | .behindArguments => m.first
  | .behindAll => maxLocals.toNat

/-- The new place of a slot of a method. -/
def newSlot (options : Options) (m : DeclaredMethod) (slot : Nat) : Nat :=
  match options.placement with
  | .behindArguments => if slot < m.first then slot else slot + 1
  | .behindAll => slot

/-- With the new variable, the allocator of a method puts the slots to these places. -/
theorem newSlot_of_allocate
    (h : ((options.allocator m).begin maxLocals).allocate (.ofBase .int) = .ok (fresh, a)) :
    fresh.toNat = options.freshSlot m maxLocals ∧ a.moved = options.newSlot m ∧ a.width = 1 := by
  have hslots := options.allocate_int m h
  obtain ⟨⟨hwidth, -⟩, -⟩ := options.movesByOne m h
  unfold freshSlot newSlot
  cases hp : options.placement with
  | behindArguments =>
    rw [hp] at hslots
    obtain ⟨hfresh, hmoved⟩ := hslots
    exact ⟨hfresh, funext hmoved, hwidth⟩
  | behindAll =>
    rw [hp] at hslots
    obtain ⟨rfl, hmoved⟩ := hslots
    exact ⟨rfl, funext hmoved, hwidth⟩

end Options

namespace MethodInjection

/-- **The events behind the start** become one event each. -/
theorem run_threaded {i j : MethodInjection} {place : Nat → Nat} {events sent : List BodyEvent}
    (he : ∀ e ∈ events, ¬ e.IsStart) (hmoved : i.allocator.moved = place)
    (hwidth : i.allocator.width = 1) (h : Stage.run step i events = (j, sent, none)) :
    BodyEvent.Threaded place i.allocator events sent := by
  induction events generalizing i sent with
  | nil =>
    obtain ⟨-, rfl⟩ := Stage.run_nil.1 h
    exact .nil _
  | cons e rest ih =>
    obtain ⟨hfault, behind, hrest, rfl⟩ := Stage.run_cons.1 h
    have hlater : ∀ e ∈ rest, ¬ e.IsStart := fun e h => he e (List.mem_cons_of_mem _ h)
    by_cases hf : ∃ f, e = .frame f
    · obtain ⟨f, rfl⟩ := hf
      -- after a frame the allocator is another one, but it moves slots as before
      obtain ⟨f', hf', hsent, hnext⟩ := step_frame (Prod.mk.eta).symm hfault
      have hbehind := ih hlater (by rw [hnext, Allocator.moved_takeFrame, hmoved])
        (by rw [hnext, Allocator.width_takeFrame, hwidth]) hrest
      rw [hnext] at hbehind
      rw [hsent]
      exact .frame (Prod.ext rfl hf') hbehind
    · obtain ⟨e', hsent, hcarried, -, hsame | ⟨f, hef, -⟩⟩ :=
        step_carried (he e List.mem_cons_self) hfault
      · have hbehind := ih hlater (by rw [hsame, hmoved]) (by rw [hsame, hwidth]) hrest
        rw [hsame] at hbehind
        have hnot : ∀ f, e ≠ .frame f := fun f hef => hf ⟨f, hef⟩
        rw [hsent]
        exact .other hnot (hcarried.placed hnot hmoved hwidth) hbehind
      · exact absurd ⟨f, hef⟩ hf

end MethodInjection

/-! ## The items of a class -/

/-- The body of a method as it is sent. -/
structure MethodBody where
  maxStack : UInt16
  maxLocals : UInt16
  /-- The events behind the start. -/
  rest : List BodyEvent
  startsOnce : ∀ e ∈ rest, ¬ e.IsStart

/-- All events of a body. -/
def MethodBody.events (b : MethodBody) : List BodyEvent := .start b.maxStack b.maxLocals :: b.rest

/-- What the injection into a body alone sends, and the fault that stops it. -/
def MethodBody.injected (options : Options) (m : DeclaredMethod) (b : MethodBody) :
    List BodyEvent × Option Fault :=
  (Stage.run MethodInjection.step (.ofAllocator (options.allocator m)) b.events).2

/-- A part of a class behind its declaration. -/
inductive ClassItem
  | field (f : Field)
  | attribute (a : Attribute)
  | method (d : MethodDeclaration) (body : Option MethodBody)

namespace ClassItem

/-- The events of an item. -/
def events : ClassItem → List ClassEvent
  | field f => [.field f]
  | «attribute» a => [.attribute a]
  | method d none => methodEvents (d, [])
  | method d (some b) => methodEvents (d, b.events)

/-- Does the injection take an item that stands alone in the class with the given name? -/
def Accepted (options : Options) (name : BinaryName) : ClassItem → Prop
  | method d (some b) => (b.injected options (.ofDeclaration d name)).2 = none
  | _ => True

/-- **What the injection makes of an item alone.** Of the class it looks at the name only. -/
def sent (options : Options) (name : BinaryName) : ClassItem → List ClassEvent
  | method d (some b) => methodEvents (d, (b.injected options (.ofDeclaration d name)).1)
  | x => x.events

/-- What an item becomes: a body sets the new variable and goes on with its events, one for one. All
other items stay as they are. -/
def Becomes (options : Options) (name : BinaryName) : ClassItem → List ClassEvent → Prop
  | method d (some b), sent =>
    ∃ (fresh : UInt16) (a : Allocator) (behind : List BodyEvent),
      ((options.allocator (.ofDeclaration d name)).begin b.maxLocals).allocate (.ofBase .int) =
          .ok (fresh, a) ∧
        fresh.toNat = options.freshSlot (.ofDeclaration d name) b.maxLocals ∧
        BodyEvent.Threaded (options.newSlot (.ofDeclaration d name)) a b.rest behind ∧
        sent = methodEvents (d, .start b.maxStack b.maxLocals ::
          .operation (.plain (.nullary .iconstM1)) ::
            .operation (.plain (.store .int fresh)) :: behind)
  | x, sent => sent = x.events

variable {options : Options} {name : BinaryName}

theorem becomes_sent {x : ClassItem} (h : x.Accepted options name) :
    x.Becomes options name (x.sent options name) := by
  cases x with
  | field _ | «attribute» _ => rfl
  | method d body =>
    cases body with
    | none => rfl
    | some b =>
      rcases hrun : Stage.run MethodInjection.step
        (.ofAllocator (options.allocator (.ofDeclaration d name))) b.events with ⟨j, sent, fault⟩
      have hnone : fault = none := by
        have hfault : (b.injected options (.ofDeclaration d name)).2 = none := h
        rw [MethodBody.injected, hrun] at hfault
        exact hfault
      subst hnone
      obtain ⟨fresh, a, behind, ha, hbehind, hsent⟩ := MethodInjection.run_start hrun
      obtain ⟨hfresh, hmoved, hwidth⟩ := Options.newSlot_of_allocate ha
      refine ⟨fresh, a, behind, ha, hfresh,
        MethodInjection.run_threaded b.startsOnce hmoved hwidth hbehind, ?_⟩
      rw [← hsent]
      show methodEvents (d, (b.injected options (.ofDeclaration d name)).1) = _
      rw [MethodBody.injected, hrun]

end ClassItem

namespace ClassInjection

variable {options : Options} {name : BinaryName} {i j : ClassInjection} {sent : List ClassEvent}

/-- A method is taken if the injection into its body alone takes it. -/
theorem run_methodEvents {d : MethodDeclaration} {events : List BodyEvent} {m : MethodInjection}
    {events' : List BodyEvent} {fault : Option Fault}
    (hrun : Stage.run MethodInjection.step
      (.ofAllocator (options.allocator (.ofDeclaration d name))) events = (m, events', fault)) :
    Stage.run step ⟨options, some name, none⟩ (methodEvents (d, events)) = (j, sent, none) ↔
      fault = none ∧ j = ⟨options, some name, none⟩ ∧ sent = methodEvents (d, events') := by
  constructor
  · intro h
    obtain ⟨⟨d', sent'⟩, ⟨hd, m', hrun'⟩, rfl, rfl⟩ := run_method h
    obtain rfl : d' = d := hd
    rw [hrun] at hrun'
    cases hrun'
    exact ⟨rfl, rfl, rfl⟩
  · rintro ⟨rfl, rfl, rfl⟩
    -- the body is run in the state that the start of the method leaves
    have hbody := run_map_body (i := ⟨options, some name, some (openMethod options name d)⟩)
      events rfl
    rw [hrun] at hbody
    exact Stage.run_cons.2 ⟨rfl, _, Stage.run_append.2 ⟨_, _, _, hbody, rfl, rfl⟩, rfl⟩

/-- **One item** leaves the injection as it was. -/
theorem run_item {x : ClassItem} :
    Stage.run step ⟨options, some name, none⟩ x.events = (j, sent, none) ↔
      x.Accepted options name ∧ j = ⟨options, some name, none⟩ ∧ sent = x.sent options name := by
  have single : ∀ e, step ⟨options, some name, none⟩ e = .send ⟨options, some name, none⟩ e →
      (Stage.run step ⟨options, some name, none⟩ [e] = (j, sent, none) ↔
        True ∧ j = ⟨options, some name, none⟩ ∧ sent = [e]) := by
    intro e he
    rw [Stage.run_cons, he]
    simp only [Step.send, Step.events, Stage.run_nil, List.map_cons, List.map_nil]
    constructor
    · rintro ⟨-, behind, ⟨rfl, rfl⟩, rfl⟩
      exact ⟨trivial, rfl, rfl⟩
    · rintro ⟨-, rfl, rfl⟩
      exact ⟨trivial, [], ⟨rfl, rfl⟩, rfl⟩
  cases x with
  | field f => exact single (.field f) rfl
  | «attribute» a => exact single (.attribute a) rfl
  | method d body =>
    cases body with
    | none =>
      have hnone : Stage.run MethodInjection.step
          (.ofAllocator (options.allocator (.ofDeclaration d name))) [] = (_, [], none) := rfl
      refine (run_methodEvents hnone).trans ?_
      exact and_congr_left fun _ => iff_of_true rfl trivial
    | some b => exact run_methodEvents rfl

/-- **Items in a row**, each as if it stood alone. -/
theorem run_items {items : List ClassItem} :
    Stage.run step ⟨options, some name, none⟩ (items.flatMap ClassItem.events) = (j, sent, none) ↔
      (∀ x ∈ items, x.Accepted options name) ∧ j = ⟨options, some name, none⟩ ∧
        sent = items.flatMap (ClassItem.sent options name) := by
  induction items generalizing sent with
  | nil => simp [Stage.run_nil]
  | cons x items ih =>
    rw [List.flatMap_cons, List.flatMap_cons, Stage.run_append, List.forall_mem_cons]
    constructor
    · rintro ⟨u, front, behind, hitem, hrest, rfl⟩
      obtain ⟨hx, rfl, rfl⟩ := run_item.1 hitem
      obtain ⟨hitems, rfl, rfl⟩ := ih.1 hrest
      exact ⟨⟨hx, hitems⟩, rfl, rfl⟩
    · rintro ⟨⟨hx, hitems⟩, rfl, rfl⟩
      exact ⟨_, _, _, run_item.2 ⟨hx, rfl, rfl⟩, ih.2 ⟨hitems, rfl, rfl⟩, rfl⟩

/-- **A class is taken** if each of its items alone is, and what is recorded is what the items alone
become, in their order. -/
theorem feed_items_iff {c : ClassDeclaration} {items : List ClassItem}
    {recorded : List ClassEvent} :
    Sink.feed (step.into .record) (.ofOptions options, [])
        (.classStart c :: items.flatMap ClassItem.events) = ((i, recorded), none) ↔
      (∀ x ∈ items, x.Accepted options c.name) ∧ i = ⟨options, some c.name, none⟩ ∧
        recorded.reverse = .classStart c :: items.flatMap (ClassItem.sent options c.name) := by
  have hstart : step (.ofOptions options) (.classStart c) =
      .send ⟨options, some c.name, none⟩ (.classStart c) := rfl
  rw [Stage.feed_into]
  simp only [Stage.feed_record, List.append_nil, Stage.run_cons, hstart]
  constructor
  · rintro ⟨_, ⟨-, behind, hrun, rfl⟩, rfl⟩
    obtain ⟨hitems, rfl, rfl⟩ := run_items.1 hrun
    exact ⟨hitems, rfl, List.reverse_reverse _⟩
  · rintro ⟨hitems, rfl, hrecorded⟩
    refine ⟨recorded.reverse, ⟨rfl, _, run_items.2 ⟨hitems, rfl, rfl⟩, hrecorded⟩, ?_⟩
    exact (List.reverse_reverse _).symm

/-- **Methods are handled on their own, one event at a time.** Let the injection into a class record
the declaration of the class and any items behind it. What it records is the declaration and what
each item becomes alone, which the options and the name of the class determine. An item that is a
method with a body sets the new variable and goes on with one event for each event of the body; all
others stay as they are. -/
theorem feed_items {c : ClassDeclaration} {items : List ClassItem} {recorded : List ClassEvent}
    (h : Sink.feed (step.into .record) (.ofOptions options, [])
      (.classStart c :: items.flatMap ClassItem.events) = ((i, recorded), none)) :
    recorded.reverse = .classStart c :: items.flatMap (ClassItem.sent options c.name) ∧
      ∀ x ∈ items, x.Becomes options c.name (x.sent options c.name) := by
  obtain ⟨hitems, -, hrecorded⟩ := feed_items_iff.1 h
  exact ⟨hrecorded, fun x hx => ClassItem.becomes_sent (hitems x hx)⟩

/-- A body with three frames. -/
def framedBody : MethodBody where
  maxStack := 2
  maxLocals := 3
  rest := MethodInjection.framedEvents
  startsOnce := by simp [MethodInjection.framedEvents, BodyEvent.IsStart]

/-- What the injection sends for it in a method with one argument. -/
def framedSent : List BodyEvent := [
  .start 2 3, .operation (.plain (.nullary .iconstM1)), .operation (.plain (.store .int 1)),
  .operation (.plain (.store .long 2)), .frame (.full [.integer, .integer, .long] []),
  .frame (.full [.top, .integer] []), .operation (.plain (.load .int 0)), .frame .same,
  .limits 2 4]

/-- The second method gets its new variable in the same slot as the first one, and its first frame
is spelled out again. -/
theorem feed_items_twice :
    let items : List ClassItem := [.method sampleMethod (some framedBody),
      .method sampleMethod none, .method sampleMethod (some framedBody)]
    ∃ i recorded, Sink.feed (step.into .record) (.ofOptions .standard, [])
        (.classStart sampleDeclaration :: items.flatMap ClassItem.events) =
          ((i, recorded), none) ∧
      recorded.reverse = .classStart sampleDeclaration :: [(sampleMethod, framedSent),
        (sampleMethod, []), (sampleMethod, framedSent)].flatMap methodEvents ∧
      ∀ x ∈ items, x.Becomes .standard sampleDeclaration.name
        (x.sent .standard sampleDeclaration.name) := by
  intro items
  have hfeed : ∃ i recorded, Sink.feed (step.into .record) (.ofOptions .standard, [])
      (.classStart sampleDeclaration :: items.flatMap ClassItem.events) =
        ((i, recorded), none) := ⟨_, _, rfl⟩
  obtain ⟨i, recorded, hfeed⟩ := hfeed
  obtain ⟨hrecorded, hbecomes⟩ := feed_items hfeed
  exact ⟨i, recorded, hfeed, hrecorded, hbecomes⟩

end ClassInjection

end FreshLocal
