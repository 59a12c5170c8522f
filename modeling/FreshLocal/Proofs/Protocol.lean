import FreshLocal.Proofs.ClassAssembly
import FreshLocal.Proofs.Misuse
import FreshLocal.Proofs.ProperBody

/-!
# The order of events

The events of a class come in a fixed order: the class starts and ends, fields,
methods and attributes stand in between, and a body starts once inside a method.
How far the events have come is a **phase**; an event leads from one phase to
another. A method may end when its body keeps to the rules about labels.

Every part of the work is held against the same phases. A script goes through
them, perhaps not to the end; a stage that hears events in their order sends
events in their order; and a sink that hears them so finds no fault with the
sender. The last of these carries over: a stage in front of such a sink is one
again.

* `Phase.Next`, `Phase.Run`: one event, and some events in a row.
* `Script.Follows`, `Sink.Follows`, `Stage.Follows`: the three parts of the work.
* `Stage.Follows.into`, `Script.Follows.deliver`: **how they fit together**.
* `ClassFile.follows_script`: **a class that was read** is sent in order.
-/

namespace FreshLocal

open BodyEvent

/-- **How far the events of a class have come.** -/
inductive Phase
  | unopened
  | opened
  /-- Inside a method, with the events of its body so far. -/
  | inMethod (body : List BodyEvent)
  | closed

/-- A body may go on with the event: it starts before anything else and only once, and a frame that
removes or adds locals does so with one to three of them. -/
def BodyEvent.Continues (body : List BodyEvent) (e : BodyEvent) : Prop :=
  (body = [] ↔ e.IsStart) ∧ ∀ f, e = .frame f → f.Legal

namespace Phase

/-- **An event leads from a phase to another.** -/
inductive Next : Phase → ClassEvent → Phase → Prop
  | classStart (c : ClassDeclaration) : Next unopened (.classStart c) opened
  | field (f : Field) : Next opened (.field f) opened
  | attribute (a : Attribute) : Next opened (.attribute a) opened
  | methodStart (d : MethodDeclaration) : Next opened (.methodStart d) (inMethod [])
  | body {events : List BodyEvent} {e : BodyEvent} (h : Continues events e) :
      Next (inMethod events) (.body e) (inMethod (events ++ [e]))
  | methodEnd {events : List BodyEvent} (h : Proper events) :
      Next (inMethod events) .methodEnd opened
  | classEnd : Next opened .classEnd closed

/-- **Some events lead from a phase to another**, one after the other. -/
inductive Run : Phase → List ClassEvent → Phase → Prop
  | nil (p : Phase) : Run p [] p
  | cons {p q r : Phase} {e : ClassEvent} {rest : List ClassEvent} (h : Next p e q)
      (hrest : Run q rest r) : Run p (e :: rest) r

variable {p q r : Phase} {e : ClassEvent} {events rest : List ClassEvent}

theorem Next.run (h : Next p e q) : Run p [e] q := .cons h (.nil q)

theorem Run.append (h : Run p events q) (hrest : Run q rest r) : Run p (events ++ rest) r := by
  induction h with
  | nil p => exact hrest
  | cons h _ ih => exact .cons h (ih hrest)

theorem Run.of_append (h : Run p (events ++ rest) r) : ∃ q, Run p events q ∧ Run q rest r := by
  induction events generalizing p with
  | nil => exact ⟨p, .nil p, h⟩
  | cons e events ih =>
    cases h with
    | cons hfirst h =>
      obtain ⟨q, hevents, hrest⟩ := ih h
      exact ⟨q, .cons hfirst hevents, hrest⟩

/-- Events that leave a phase as it is. -/
theorem run_same (h : ∀ e ∈ events, Next p e p) : Run p events p := by
  induction events with
  | nil => exact .nil p
  | cons e rest ih =>
    exact .cons (h e List.mem_cons_self) (ih fun e he => h e (List.mem_cons_of_mem _ he))

/-- A body goes on. -/
theorem run_continue {front behind : List BodyEvent} (hfront : front ≠ [])
    (hstart : ∀ e ∈ behind, ¬ e.IsStart) (hlegal : ∀ f, .frame f ∈ behind → f.Legal) :
    Run (inMethod front) (behind.map .body) (inMethod (front ++ behind)) := by
  induction behind generalizing front with
  | nil =>
    rw [List.append_nil]
    exact .nil _
  | cons e behind ih =>
    have hnext : Continues front e :=
      ⟨⟨fun h => absurd h hfront, fun h => absurd h (hstart e List.mem_cons_self)⟩,
        fun f hf => hlegal f (hf ▸ List.mem_cons_self)⟩
    have hrest : Run (inMethod (front ++ [e])) (behind.map .body)
        (inMethod (front ++ [e] ++ behind)) :=
      ih (by simp) (fun e he => hstart e (List.mem_cons_of_mem _ he))
        fun f hf => hlegal f (List.mem_cons_of_mem _ hf)
    rw [List.append_assoc, List.singleton_append] at hrest
    exact .cons (.body hnext) hrest

/-- **A body** from its start on. -/
theorem run_body {maxStack maxLocals : UInt16} {behind : List BodyEvent}
    (hstart : ∀ e ∈ behind, ¬ e.IsStart) (hlegal : ∀ f, .frame f ∈ behind → f.Legal) :
    Run (inMethod []) ((.start maxStack maxLocals :: behind).map .body)
      (inMethod (.start maxStack maxLocals :: behind)) :=
  .cons (.body ⟨⟨fun _ => trivial, fun _ => rfl⟩, fun f hf => by cases hf⟩)
    (run_continue (List.cons_ne_nil _ _) hstart hlegal)

end Phase

/-- The events of a body that has come so far. -/
structure BodyEvent.Begun (body : List BodyEvent) : Prop where
  starts : ClassBuilder.StartsOnce body
  legal : ∀ f, .frame f ∈ body → f.Legal

theorem BodyEvent.begun_nil : Begun [] := ⟨.inl rfl, fun f hf => by cases hf⟩

/-- The body goes on. -/
theorem BodyEvent.Begun.append {body : List BodyEvent} {e : BodyEvent} (h : Begun body)
    (he : Continues body e) : Begun (body ++ [e]) := by
  refine ⟨.inr ?_, fun f hf => ?_⟩
  · obtain rfl | ⟨maxStack, maxLocals, behind, rfl, hbehind⟩ := h.starts
    · cases e with
      | start maxStack maxLocals => exact ⟨maxStack, maxLocals, [], rfl, by simp⟩
      | _ => exact absurd (he.1.1 rfl) id
    · refine ⟨maxStack, maxLocals, behind ++ [e], rfl, fun e' he' => ?_⟩
      obtain he' | he' := List.mem_append.1 he'
      · exact hbehind e' he'
      · rw [List.mem_singleton.1 he']
        exact fun hstart => List.cons_ne_nil _ _ (he.1.2 hstart)
  · obtain hf | hf := List.mem_append.1 hf
    · exact h.legal f hf
    · exact he.2 f (List.mem_singleton.1 hf).symm

open Phase

/-! ## The parts of the work -/

variable {σ τ : Type}

/-- **A script goes through the phases** from `p` on, and comes to `q` unless a fault ends it, which
is not one of the sender. -/
structure Script.Follows (s : Script) (p q : Phase) : Prop where
  run : ∃ r, Run p s.events r ∧ (s.fault = none → r = q)
  blameless : ∀ fault, s.fault = some fault → ¬ fault.IsMisuse

/-- **A sink follows the phases**: where its state fits the phase, an event that may come leaves it
in a state that fits the next phase, or it refuses the event for a fault that is not one of the
sender. -/
def Sink.Follows (sink : Sink ClassEvent τ) (Fits : τ → Phase → Prop) : Prop :=
  ∀ ⦃t : τ⦄ ⦃p q : Phase⦄ ⦃e : ClassEvent⦄, Fits t p → Next p e q →
    match sink t e with
    | (t', none) => Fits t' q
    | (_, some fault) => ¬ fault.IsMisuse

/-- **A stage follows the phases**: where its state fits the phase `p` of the events that it hears
and the phase `q` of those that it sends, it answers an event that may come with events that may
come. -/
def Stage.Follows (stage : Stage ClassEvent σ) (Fits : σ → Phase → Phase → Prop) : Prop :=
  ∀ ⦃s : σ⦄ ⦃p q p' : Phase⦄ ⦃e : ClassEvent⦄, Fits s p q → Next p e p' →
    (∀ fault, (stage s e).fault = some fault → ¬ fault.IsMisuse) ∧
      ∃ q', Run q (stage s e).events q' ∧ ((stage s e).fault = none → Fits (stage s e).state p' q')

section Composition

variable {sink : Sink ClassEvent τ} {SinkFits : τ → Phase → Prop}
  {stage : Stage ClassEvent σ} {StageFits : σ → Phase → Phase → Prop}

/-- A sink takes the events of a step, or refuses one of them for no fault of the sender. -/
theorem Sink.Follows.deliver (hsink : sink.Follows SinkFits) {step : Step ClassEvent σ}
    (hstep : ∀ fault, step.fault = some fault → ¬ fault.IsMisuse) {t : τ} {q q' : Phase}
    (ht : SinkFits t q) (hrun : Run q step.events q') :
    match step.deliver sink t with
    | ((s', t'), none) => step.fault = none ∧ s' = step.state ∧ SinkFits t' q'
    | (_, some fault) => ¬ fault.IsMisuse := by
  -- over the events that are still to be sent; the fault of the step itself comes behind them
  have key : ∀ (sent : List (ClassEvent × σ)) (t : τ) (q : Phase), SinkFits t q →
      Run q (sent.map Prod.fst) q' →
      match step.deliverFrom sink sent t with
      | ((s', t'), none) => step.fault = none ∧ s' = step.state ∧ SinkFits t' q'
      | (_, some fault) => ¬ fault.IsMisuse := by
    intro sent
    induction sent with
    | nil =>
      intro t q ht hrun
      cases hrun
      rw [Step.deliverFrom]
      cases hfault : step.fault with
      | none => exact ⟨rfl, rfl, ht⟩
      | some fault => exact hstep fault hfault
    | cons first rest ih =>
      intro t q ht hrun
      rw [List.map_cons] at hrun
      cases hrun with
      | cons hnext hrest =>
        have htaken := hsink ht hnext
        rw [Step.deliverFrom]
        rcases hs : sink t first.1 with ⟨t', _ | fault⟩
        · rw [hs] at htaken
          exact ih t' _ htaken hrest
        · rw [hs] at htaken
          exact fun h => htaken ((Fault.isMisuse_blame _).1 h)
  exact key step.sent t q ht hrun

/-- **A stage in front of a sink** is a sink that follows the phases, if both of them do. -/
theorem Stage.Follows.into (hstage : stage.Follows StageFits) (hsink : sink.Follows SinkFits) :
    (stage.into sink).Follows fun x p => ∃ q, StageFits x.1 p q ∧ SinkFits x.2 q := by
  rintro ⟨s, t⟩ p p' e ⟨q, hs, ht⟩ hnext
  obtain ⟨hfault, q', hrun, hkept⟩ := hstage hs hnext
  have hdelivered := hsink.deliver hfault ht hrun
  have hinto : stage.into sink (s, t) e = (stage s e).deliver sink t := rfl
  rw [hinto]
  rcases h : (stage s e).deliver sink t with ⟨⟨s', t'⟩, _ | fault⟩
  · rw [h] at hdelivered
    obtain ⟨hnone, rfl, ht'⟩ := hdelivered
    exact ⟨q', hkept hnone, ht'⟩
  · rw [h] at hdelivered
    exact hdelivered

/-- **A script that is sent to a sink** comes to its end, or to a fault that is not one of the
sender. -/
theorem Script.Follows.deliver {script : Script} {p q : Phase} (hscript : script.Follows p q)
    (hsink : sink.Follows SinkFits) {t : τ} (ht : SinkFits t p) :
    match script.deliver sink t with
    | (t', none) => SinkFits t' q
    | (_, some fault) => ¬ fault.IsMisuse := by
  obtain ⟨⟨r, hrun, hend⟩, hfault⟩ := hscript
  -- the title of the method that is open matters only to the name that a fault gets
  have key : ∀ (events : List ClassEvent) (title : Option String) (t : τ) (p : Phase),
      SinkFits t p → Run p events r →
      match Script.deliverFrom sink script.fault title events t with
      | (t', none) => SinkFits t' q
      | (_, some fault) => ¬ fault.IsMisuse := by
    intro events
    induction events with
    | nil =>
      intro title t p ht hrun
      cases hrun
      rw [Script.deliverFrom]
      cases h : script.fault with
      | none => exact hend h ▸ ht
      | some fault => exact hfault fault h
    | cons e rest ih =>
      intro title t p ht hrun
      cases hrun with
      | cons hnext hrest =>
        have htaken := hsink ht hnext
        rw [Script.deliverFrom]
        rcases hs : sink t e with ⟨t', _ | fault⟩
        · rw [hs] at htaken
          exact ih _ t' _ htaken hrest
        · rw [hs] at htaken
          exact fun h => htaken ((Fault.isMisuse_refusal _ _).1 h)
  exact key script.events none t p ht hrun

/-- **A stage that hears events in their order** sends events in their order, also those that it
sends before it stops. -/
theorem Stage.Follows.run (hstage : stage.Follows StageFits) {s s' : σ} {p p' q : Phase}
    {events sent : List ClassEvent} {fault : Option Fault} (hs : StageFits s p q)
    (hrun : Run p events p') (h : stage.run s events = (s', sent, fault)) :
    ∃ q', Run q sent q' := by
  induction events generalizing s s' p q sent fault with
  | nil =>
    cases h
    exact ⟨q, .nil q⟩
  | cons e rest ih =>
    cases hrun with
    | cons hnext hrest =>
      obtain ⟨-, q', hsent, hkept⟩ := hstage hs hnext
      rw [Stage.run] at h
      cases hfault : (stage s e).fault with
      | some stopped =>
        -- what was sent before the stage stopped is in order, too
        rw [hfault] at h
        cases h
        exact ⟨q', hsent⟩
      | none =>
        rw [hfault] at h
        rcases hr : stage.run (stage s e).state rest with ⟨s'', behind, fault'⟩
        simp only [hr, Prod.mk.injEq] at h
        obtain ⟨-, rfl, -⟩ := h
        obtain ⟨q'', hbehind⟩ := ih (hkept hfault) hrest hr
        exact ⟨q'', hsent.append hbehind⟩

end Composition

/-! ## The script of a class -/

namespace Script

variable {p q r : Phase} {s : Script} {scripts : List Script}

theorem follows_of_run {events : List ClassEvent} (h : Run p events q) :
    (⟨events, none⟩ : Script).Follows p q :=
  ⟨⟨q, h, fun _ => rfl⟩, fun _ h => by cases h⟩

theorem follows_failed {fault : Fault} (h : ¬ fault.IsMisuse) : (failed fault).Follows p q := by
  refine ⟨⟨p, .nil p, fun h => by cases h⟩, fun fault' heq => ?_⟩
  cases heq
  exact h

/-- **Scripts in a row** go through the phases one after the other. -/
theorem Follows.concat_cons (hs : s.Follows p q) (hrest : (concat scripts).Follows q r) :
    (concat (s :: scripts)).Follows p r := by
  rw [Script.concat_cons]
  split
  · rename_i hnone
    obtain ⟨u, hrun, hend⟩ := hs.run
    obtain rfl := hend (Option.isNone_iff_eq_none.1 hnone)
    obtain ⟨v, hrun', hend'⟩ := hrest.run
    exact ⟨⟨v, hrun.append hrun', hend'⟩, hrest.blameless⟩
  · rename_i hsome
    obtain ⟨u, hrun, -⟩ := hs.run
    exact ⟨⟨u, hrun, fun h => absurd (Option.isNone_iff_eq_none.2 h) hsome⟩, hs.blameless⟩

theorem follows_concat_nil (p : Phase) : (concat []).Follows p p := follows_of_run (.nil p)

/-- Scripts that come back to where they started, and others behind them. -/
theorem Follows.concat_append {rest : List Script} (hs : ∀ s ∈ scripts, s.Follows p p)
    (hrest : (concat rest).Follows p r) : (concat (scripts ++ rest)).Follows p r := by
  induction scripts with
  | nil => exact hrest
  | cons s scripts ih =>
    exact (hs s List.mem_cons_self).concat_cons
      (ih fun s hs' => hs s (List.mem_cons_of_mem _ hs'))

end Script

namespace Method

variable {pool : ConstantPool}

theorem blameless_split (m : Method) : Blameless (split pool m) := by
  refine (blameless_mapError fun _ => id).bind fun _ _ => ?_
  refine (blameless_mapError fun _ => id).bind fun _ _ => ?_
  refine (blameless_mapError fun _ => id).bind fun _ _ => ?_
  refine (blameless_mapError fun _ => id).bind fun _ _ => ?_
  exact (blameless_mapError fun _ => id).bind fun _ _ => blameless_ok _

/-- **A body that was read** is sent in order. A fault behind its events is that of a frame before
no instruction; then the method does not end. -/
theorem follows_bodyScript (hpool : pool.Stored) (title : String) (code : Attribute) :
    (Script.concat [bodyScript pool title code, ⟨[.methodEnd], none⟩]).Follows
      (inMethod []) opened := by
  cases hread : Body.read pool code.body with
  | error fault =>
    have hscript : bodyScript pool title code = .failed (.inMethod title (.decode fault)) := by
      rw [bodyScript, hread]
    rw [hscript]
    have hfailed : ¬ (Fault.inMethod title (.decode fault)).IsMisuse := id
    exact Script.Follows.concat_cons (Script.follows_failed hfailed)
      (Script.follows_of_run (Next.methodEnd BodyEvent.proper_nil).run)
  | ok b =>
    have hscript : bodyScript pool title code =
        ⟨b.events.1.map .body, b.events.2.map fun f => .inMethod title (.decode f)⟩ := by
      rw [bodyScript, hread]
    have hreadable := Body.readable_of_read hpool hread
    obtain ⟨rest, hrest, hstart⟩ := b.events_eq
    -- up to here it makes no difference whether a fault stands behind the events
    have hrun : Run (inMethod []) (b.events.1.map .body) (inMethod b.events.1) := by
      have hlegal : ∀ f, .frame f ∈ rest → f.Legal := fun f hf =>
        hreadable.legal (hrest ▸ List.mem_cons_of_mem _ hf)
      rw [hrest]
      exact run_body hstart hlegal
    rw [Script.concat_cons, hscript]
    cases hfault : b.events.2 with
    | none =>
      have hproper := hreadable.sound.proper hfault
      exact Script.follows_of_run (hrun.append (Next.methodEnd hproper).run)
    | some fault =>
      refine ⟨⟨_, hrun, fun h => by cases h⟩, fun fault' heq => ?_⟩
      cases heq
      exact id

/-- **A method** is sent in order. -/
theorem follows_script (hpool : pool.Stored) (m : Method) :
    (script pool m).Follows opened opened := by
  unfold script
  split
  · rename_i fault hsplit
    exact Script.follows_failed (blameless_split m fault hsplit)
  · exact Script.follows_of_run
      (.cons (.methodStart _) (.cons (.methodEnd BodyEvent.proper_nil) (.nil _)))
  · exact Script.Follows.concat_cons (Script.follows_of_run (Next.methodStart _).run)
      (follows_bodyScript hpool _ _)

end Method

namespace ClassFile

variable {c : ClassFile}

theorem blameless_declaration (c : ClassFile) : Blameless c.declaration := by
  refine (blameless_mapError fun _ => id).bind fun _ _ => ?_
  exact (blameless_mapError fun _ => id).bind fun _ _ => blameless_ok _

/-- **A class that was read** is sent in order. -/
theorem follows_script (hc : c.Stored) : c.script.Follows unopened closed := by
  unfold script
  split
  · rename_i fault hfault
    exact Script.follows_failed (blameless_declaration c fault hfault)
  · rename_i d hd
    have hfields : Run opened (c.fields.toList.map .field) opened := by
      refine run_same fun e he => ?_
      obtain ⟨f, -, rfl⟩ := List.mem_map.1 he
      exact .field f
    have hattributes : Run opened (c.attributes.toList.map .attribute) opened := by
      refine run_same fun e he => ?_
      obtain ⟨a, -, rfl⟩ := List.mem_map.1 he
      exact .attribute a
    rw [List.cons_append]
    refine Script.Follows.concat_cons
      (Script.follows_of_run (.cons (.classStart d) hfields)) ?_
    refine Script.Follows.concat_append (fun s hs => ?_) ?_
    · obtain ⟨m, -, rfl⟩ := List.mem_map.1 hs
      exact Method.follows_script hc.pool m
    · exact Script.Follows.concat_cons
        (Script.follows_of_run (hattributes.append Next.classEnd.run))
        (Script.follows_concat_nil closed)

end ClassFile

end FreshLocal
