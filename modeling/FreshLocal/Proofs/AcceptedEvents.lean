import FreshLocal.Proofs.ClassAssembly

/-!
# Whatever the builder takes

The builder asks little of the events that it takes: fields and attributes may
come at any time, also inside a method. Still the class that it has in the end
depends only on what was sent of each kind, in its order.

**Argument.** Take the events that came so far. Those of methods are the methods
that were built, and the events of the method that is open, of which the builder
has a draft. Each event that is taken keeps this.

* `ClassEvent.isInner`: the events of methods.
* `ClassBuilder.Keeps`: what the builder has after some events.
* `ClassBuilder.Keeps.receive`: **one event** keeps this.
* `ClassBuilder.built_of_feed`: **the class** that some events make.
-/

namespace FreshLocal

namespace ClassEvent

/-- Does the event belong to a method? -/
def isInner : ClassEvent → Bool
  | methodStart _ | body _ | methodEnd => true
  | _ => false

/-- The field that an event sends. -/
def field? : ClassEvent → Option Field
  | field f => some f
  | _ => none

/-- The attribute of the class that an event sends. -/
def attribute? : ClassEvent → Option Attribute
  | «attribute» a => some a
  | _ => none

theorem methods_flatMap (xs : List SentMethod) : methods (xs.flatMap methodEvents) = xs := by
  induction xs with
  | nil => rfl
  | cons x xs ih => rw [List.flatMap_cons, methods_methodEvents, ih]

end ClassEvent

namespace ClassBuilder

variable {c : ClassDeclaration} {events : List ClassEvent} {e : ClassEvent} {b b' : ClassBuilder}
  {pool pool₁ pool₂ : ConstantPool} {xs : List SentMethod} {ms : List Method}

/-- One more method is built. -/
theorem Builds.concat (h : Builds pool xs ms pool₁) {x : SentMethod} {draft : Option Draft}
    (hdraft : Drafted x.2 draft) {m : Method}
    (hm : (complete (ofMethodDeclaration x.1) draft).run pool₁ = .ok m pool₂) :
    Builds pool (xs ++ [x]) (ms ++ [m]) pool₂ := by
  induction h with
  | nil pool => exact .cons hdraft hm (.nil _)
  | cons hdraft' hm' _ ih => exact .cons hdraft' hm' (ih hm)

/-- The events of the method that is open. -/
def Open : Option (Method × Option Draft) → List ClassEvent → Prop
  | none, pending => pending = []
  | some (m, draft), pending => ∃ d events, m = ofMethodDeclaration d ∧ Drafted events draft ∧
      pending = .methodStart d :: events.map .body

/-- **What the builder has** after the start of a class and some events. -/
def Keeps (c : ClassDeclaration) (events : List ClassEvent) (b : ClassBuilder) : Prop :=
  ∃ pool xs ms pending, Builds c.pool xs ms pool ∧
    events.filter (·.isInner) = xs.flatMap methodEvents ++ pending ∧ Open b.method pending ∧
    (b.finished = true → b.method = none) ∧
    b.file = some { ofDeclaration c with
      pool, fields := (events.filterMap ClassEvent.field?).toArray, methods := ms.toArray
      attributes := (events.filterMap ClassEvent.attribute?).toArray }

theorem keeps_nil (c : ClassDeclaration) : Keeps c [] ⟨some (ofDeclaration c), none, false⟩ :=
  ⟨c.pool, [], [], [], .nil _, rfl, rfl, nofun, rfl⟩

/-- An event that changes only the class, and not its pool or its methods. -/
theorem Keeps.onFile (h : Keeps c events b) {change : ClassFile → ClassFile}
    (hb : b.onFile change = (b', none)) (hinner : e.isInner = false)
    (hchange : ∀ pool ms, change { ofDeclaration c with
        pool, fields := (events.filterMap ClassEvent.field?).toArray, methods := ms
        attributes := (events.filterMap ClassEvent.attribute?).toArray } =
      { ofDeclaration c with
        pool, fields := ((events ++ [e]).filterMap ClassEvent.field?).toArray, methods := ms
        attributes := ((events ++ [e]).filterMap ClassEvent.attribute?).toArray }) :
    Keeps c (events ++ [e]) b' := by
  obtain ⟨file, method, finished⟩ := b
  obtain ⟨pool, xs, ms, pending, hbuilds, hevents, hopen, -, rfl⟩ := h
  cases finished with
  | true => cases hb
  | false =>
    cases hb
    refine ⟨pool, xs, ms, pending, hbuilds, ?_, hopen, nofun, ?_⟩
    · rw [List.filter_append, hevents, List.filter_cons_of_neg (by simp [hinner]), List.filter_nil,
        List.append_nil]
    · exact congrArg some (hchange pool ms.toArray)

/-- An event of a method leaves what is outside of methods. -/
theorem filterMap_inner (events : List ClassEvent) (h : e.isInner = true) :
    (events ++ [e]).filterMap ClassEvent.field? = events.filterMap ClassEvent.field? ∧
      (events ++ [e]).filterMap ClassEvent.attribute? = events.filterMap ClassEvent.attribute? ∧
      (events ++ [e]).filter (·.isInner) = events.filter (·.isInner) ++ [e] := by
  rw [List.filterMap_append, List.filterMap_append, List.filter_append]
  cases e with
  | methodStart _ | body _ | methodEnd => simp [ClassEvent.field?, ClassEvent.attribute?, h]
  | _ => cases h

/-- A method is opened while none is. -/
theorem Keeps.openMethod {d : MethodDeclaration} (h : Keeps c events b)
    (hb : b.openMethod d = (b', none)) : Keeps c (events ++ [.methodStart d]) b' := by
  obtain ⟨hfields, hattributes, hinner⟩ := filterMap_inner events (e := .methodStart d) rfl
  obtain ⟨file, method, finished⟩ := b
  obtain ⟨pool, xs, ms, pending, hbuilds, hevents, hopen, -, rfl⟩ := h
  cases finished with
  | true => cases method <;> cases hb
  | false =>
    cases method with
    | some _ => cases hb
    | none =>
      cases hb
      obtain rfl : pending = [] := hopen
      refine ⟨pool, xs, ms, [.methodStart d], hbuilds, ?_, ⟨d, [], rfl, rfl, rfl⟩, nofun, ?_⟩
      · rw [hinner, hevents, List.append_nil]
      · rw [hfields, hattributes]

/-- The draft takes the event of a body, or the event opens the body. -/
theorem drafted_receive {file : Option ClassFile} {m : Method} {draft : Option Draft}
    {finished : Bool} {body : List BodyEvent} {e : BodyEvent} (h : Drafted body draft)
    (hb : receive ⟨file, some (m, draft), finished⟩ (.body e) = (b', none)) :
    ∃ draft', Drafted (body ++ [e]) draft' ∧ b' = ⟨file, some (m, draft'), finished⟩ := by
  cases draft with
  | none =>
    obtain rfl : body = [] := h
    cases e <;> cases hb
    exact ⟨some _, ⟨List.cons_ne_nil _ _, Draft.holds_empty _ _⟩, rfl⟩
  | some draft =>
    refine ⟨some (draft.push e), ⟨by simp, h.2.push e⟩, ?_⟩
    cases e <;> cases hb <;> rfl

/-- An event of a body is one of the method that is open. -/
theorem Keeps.receiveBody {e : BodyEvent} (h : Keeps c events b)
    (hb : receive b (.body e) = (b', none)) : Keeps c (events ++ [.body e]) b' := by
  obtain ⟨hfields, hattributes, hinner⟩ := filterMap_inner events (e := .body e) rfl
  obtain ⟨file, method, finished⟩ := b
  obtain ⟨pool, xs, ms, pending, hbuilds, hevents, hopen, hfinished, rfl⟩ := h
  cases method with
  | none => cases e <;> cases hb
  | some open_ =>
    obtain ⟨m, draft⟩ := open_
    obtain ⟨d, body, rfl, hdraft, rfl⟩ := hopen
    obtain ⟨draft', hdraft', rfl⟩ := drafted_receive hdraft hb
    refine ⟨pool, xs, ms, _, hbuilds, ?_, ⟨d, body ++ [e], rfl, hdraft', rfl⟩, fun h => ?_, ?_⟩
    · rw [hinner, hevents]
      simp
    · cases hfinished h
    · rw [hfields, hattributes]

/-- The method that ends is built behind the others. -/
theorem Keeps.closeMethod (h : Keeps c events b) (hb : b.closeMethod = (b', none)) :
    Keeps c (events ++ [.methodEnd]) b' := by
  obtain ⟨hfields, hattributes, hinner⟩ := filterMap_inner events (e := .methodEnd) rfl
  obtain ⟨file, method, finished⟩ := b
  obtain ⟨pool, xs, ms, pending, hbuilds, hevents, hopen, hfinished, rfl⟩ := h
  cases method with
  | none => cases hb
  | some open_ =>
    obtain ⟨m, draft⟩ := open_
    obtain ⟨d, body, rfl, hdraft, rfl⟩ := hopen
    cases finished with
    | true => cases hfinished rfl
    | false =>
      unfold ClassBuilder.closeMethod at hb
      dsimp only at hb
      split at hb
      · -- the body was stored, and the pool is the one behind it
        rename_i m pool' hcomplete
        cases hb
        refine ⟨pool', xs ++ [(d, body)], ms ++ [m], [], hbuilds.concat hdraft hcomplete, ?_, rfl,
          nofun, ?_⟩
        · rw [hinner, hevents]
          simp [methodEvents]
        · rw [hfields, hattributes, List.push_toArray]
      · cases hb

/-- The class ends while no method is open. -/
theorem Keeps.close (h : Keeps c events b) (hb : b.close = (b', none)) :
    Keeps c (events ++ [.classEnd]) b' := by
  obtain ⟨file, method, finished⟩ := b
  obtain ⟨pool, xs, ms, pending, hbuilds, hevents, hopen, -, rfl⟩ := h
  cases finished with
  | true => cases method <;> cases hb
  | false =>
    cases method with
    | some _ => cases hb
    | none =>
      cases hb
      refine ⟨pool, xs, ms, pending, hbuilds, ?_, hopen, fun _ => rfl, ?_⟩
      · simpa [ClassEvent.isInner] using hevents
      · simp [ClassEvent.field?, ClassEvent.attribute?]

/-- **The builder keeps what it has** with each event that it takes. -/
theorem Keeps.receive (h : Keeps c events b) (hb : receive b e = (b', none)) :
    Keeps c (events ++ [e]) b' := by
  cases e with
  | classStart d =>
    obtain ⟨_, _, _, _, -, -, -, -, hfile⟩ := h
    rw [ClassBuilder.receive, hfile, Option.isSome_some, if_pos rfl] at hb
    cases hb
  | field f =>
    refine h.onFile hb rfl fun pool ms => ?_
    simp [ClassEvent.field?, ClassEvent.attribute?]
  | methodStart d => exact h.openMethod hb
  | body e => exact h.receiveBody hb
  | methodEnd => exact h.closeMethod hb
  | «attribute» a =>
    refine h.onFile hb rfl fun pool ms => ?_
    simp [ClassEvent.field?, ClassEvent.attribute?]
  | classEnd => exact h.close hb

/-- **So it does** with all of them. -/
theorem Keeps.feed (h : Keeps c events b) {more : List ClassEvent}
    (hb : Sink.feed ClassBuilder.receive b more = (b', none)) : Keeps c (events ++ more) b' := by
  induction more generalizing events b with
  | nil =>
    cases hb
    rwa [List.append_nil]
  | cons e more ih =>
    obtain ⟨b₁, hb₁, hb⟩ := Sink.feed_cons.1 hb
    rw [List.append_cons]
    exact ih (h.receive hb₁) hb

/-- **The class that some events make**, in whatever order fields, methods and attributes came. -/
theorem built_of_feed {bytes : Bytes} (h : Sink.feed ClassBuilder.receive .empty events = (b, none))
    (hbytes : b.finish = .ok bytes) :
    ∃ c rest pool ms, events = .classStart c :: rest ∧
      Builds c.pool (ClassEvent.methods (rest.filter (·.isInner))) ms pool ∧
      bytes = ClassFile.write { ofDeclaration c with
        pool, fields := (rest.filterMap ClassEvent.field?).toArray, methods := ms.toArray
        attributes := (rest.filterMap ClassEvent.attribute?).toArray } := by
  cases events with
  | nil =>
    cases h
    cases hbytes
  | cons e rest =>
    obtain ⟨b₁, hb₁, h⟩ := Sink.feed_cons.1 h
    -- nothing but the start of a class is taken first
    cases e with
    | classStart c =>
      cases hb₁
      obtain ⟨pool, xs, ms, pending, hbuilds, hevents, hopen, hfinished, hfile⟩ :=
        (keeps_nil c).feed h
      unfold finish at hbytes
      split at hbytes
      · -- the class has ended, so that no method is open
        rename_i file hfile' hend
        cases hbytes
        obtain rfl := Option.some.inj (hfile'.symm.trans hfile)
        rw [hfinished hend] at hopen
        obtain rfl : pending = [] := hopen
        rw [List.nil_append, List.append_nil] at hevents
        refine ⟨c, rest, pool, ms, rfl, ?_, rfl⟩
        rw [hevents, ClassEvent.methods_flatMap]
        exact hbuilds
      · cases hbytes
    | body e => cases e <;> cases hb₁
    | _ => cases hb₁

end ClassBuilder

end FreshLocal
