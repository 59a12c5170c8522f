import FreshLocal.Proofs.Fidelity
import FreshLocal.Proofs.InjectionFaults
import FreshLocal.Proofs.ProperAssembly
import FreshLocal.Proofs.Protocol

/-!
# No faults of the sender

The reader, the injection and the builder agree on the order of events and on the
rules about labels and frames. So whatever bytes come in, the work is never
stopped for a label that was not placed or placed twice, nor for an event out of
place: such a fault would be one of the reader or of the injection, and not of
the class.

**Argument.** The injection sends for each event of a body events that may come
next in the body it sends, and what it sent for a whole body is proper if the body
was (`proper_run`). The builder stores a proper body, or passes a limit
(`blameless_complete`). Both follow the phases, and so does the script of a class
that was read.

* `ClassInjection.follows`, `ClassBuilder.follows`: the two parts behind the reader.
* `ClassEvent.Orderly`: what this says about a stream of events as a whole.
* `withFreshLocals_blameless`: **no bytes lead to a fault of the sender**.
-/

namespace FreshLocal

open BodyEvent Phase

/-! ## The injection into a body -/

/-- A fault of a slot or a frame is one of the class. -/
theorem Fault.OfSlots.not_isMisuse {fault : Fault} (h : fault.OfSlots) : ¬ fault.IsMisuse := by
  cases fault with
  | localsOverflow _ | unsupportedFrame _ => exact id
  | _ => exact h.elim

namespace MethodInjection

variable {i j : MethodInjection} {e : BodyEvent} {before sent : List BodyEvent}

/-- An event behind the start becomes one event, or stops the injection for a fault of the class. -/
theorem step_other (he : ¬ e.IsStart) :
    (∃ e', (step i e).events = [e'] ∧ (step i e).fault = none ∧ e.Carried i.allocator e') ∨
      (step i e).events = [] ∧ ∃ fault, (step i e).fault = some fault ∧ ¬ fault.IsMisuse := by
  rcases step_cases i he with ⟨e', hevents, hfault, hcarried, -⟩ | ⟨hevents, fault, hfault, -⟩
  · exact .inl ⟨e', hevents, hfault, hcarried⟩
  · exact .inr ⟨hevents, fault, hfault, (ofSlots_step i e hfault).not_isMisuse⟩

/-- The injection stops for no fault of the sender. -/
theorem blameless_step (i : MethodInjection) (e : BodyEvent) (fault : Fault)
    (h : (step i e).fault = some fault) : ¬ fault.IsMisuse :=
  (ofSlots_step i e h).not_isMisuse

/-- **The body that is sent goes on** as the one that is heard. -/
theorem run_step (hbegun : Begun before) (hnext : Continues before e)
    (hrun : Stage.run step i before = (j, sent, none)) :
    Run (inMethod sent) ((step j e).events.map .body) (inMethod (sent ++ (step j e).events)) := by
  obtain rfl | ⟨maxStack, maxLocals, rest, rfl, hrest⟩ := hbegun.starts
  · -- the body starts with this event
    obtain ⟨rfl, rfl⟩ := Stage.run_nil.1 hrun
    cases e with
    | start maxStack maxLocals =>
      obtain ⟨behind, hevents, hbehind⟩ := step_start (i := j) maxStack maxLocals
      rw [hevents, List.nil_append]
      refine run_body (fun e he => ?_) fun f hf => ?_
      · obtain ⟨op, rfl⟩ := hbehind e he
        exact id
      · obtain ⟨op, hop⟩ := hbehind _ hf
        cases hop
    | _ => exact (hnext.1.1 rfl).elim
  · -- the body has started before, and so has the one that is sent
    have he : ¬ e.IsStart := fun h => List.cons_ne_nil _ _ (hnext.1.2 h)
    obtain ⟨fresh, a, behind, -, -, hsent⟩ := run_start hrun
    obtain ⟨e', hevents, -, hcarried⟩ | ⟨hevents, -⟩ := step_other (i := j) he
    · rw [hevents]
      have hne : sent ≠ [] := by
        rw [hsent]
        exact List.cons_ne_nil _ _
      refine run_continue hne (fun x hx => ?_) fun f hf => ?_
      · rw [List.mem_singleton.1 hx]
        exact hcarried.not_isStart he
      · exact hcarried.legal hnext.2 f (List.mem_singleton.1 hf).symm
    · rw [hevents, List.append_nil]
      exact .nil _

/-- **The injection keeps the rules** about the labels of a body, also where there is none. -/
theorem proper_sent {options : Options} {m : DeclaredMethod} (hbegun : Begun before)
    (hproper : Proper before)
    (hrun : Stage.run step (.ofAllocator (options.allocator m)) before = (j, sent, none)) :
    Proper sent := by
  obtain rfl | ⟨maxStack, maxLocals, rest, rfl, hrest⟩ := hbegun.starts
  · obtain ⟨-, rfl⟩ := Stage.run_nil.1 hrun
    exact proper_nil
  · exact proper_run hrest hproper hrun

end MethodInjection

/-! ## The injection into a class -/

namespace ClassInjection

/-- **How far the events have come** that the injection heard, and those that it sent. -/
inductive Mirrors : ClassInjection → Phase → Phase → Prop
  | unopened (options : Options) : Mirrors ⟨options, none, none⟩ unopened unopened
  | opened (options : Options) (name : BinaryName) :
      Mirrors ⟨options, some name, none⟩ opened opened
  | inMethod {options : Options} {m : DeclaredMethod} {j : MethodInjection}
      {before sent : List BodyEvent} (name : BinaryName) (title : String) (hbegun : Begun before)
      (hrun : Stage.run MethodInjection.step (.ofAllocator (options.allocator m)) before =
        (j, sent, none)) :
      Mirrors ⟨options, some name, some (title, j)⟩ (inMethod before) (inMethod sent)
  | closed (options : Options) (name : BinaryName) :
      Mirrors ⟨options, some name, none⟩ closed closed

/-- An event that is sent as it is. -/
theorem follows_send {i : ClassInjection} {e : ClassEvent} {p' q q' : Phase} (hnext : Next q e q')
    (hkept : Mirrors i p' q') :
    (∀ fault, (Step.send i e).fault = some fault → ¬ fault.IsMisuse) ∧
      ∃ q', Run q (Step.send i e).events q' ∧
        ((Step.send i e).fault = none → Mirrors (Step.send i e).state p' q') :=
  ⟨fun _ h => (by cases h), q', hnext.run, fun _ => hkept⟩

/-- **The injection follows the phases.** -/
theorem follows : Stage.Follows step Mirrors := by
  intro i p q p' e hi hnext
  cases hnext with
  | classStart c =>
    cases hi with
    | unopened options => exact follows_send (.classStart c) (.opened options c.name)
  | field f =>
    cases hi with
    | opened options name => exact follows_send (.field f) (.opened options name)
  | «attribute» a =>
    cases hi with
    | opened options name => exact follows_send (.attribute a) (.opened options name)
  | classEnd =>
    cases hi with
    | opened options name => exact follows_send .classEnd (.closed options name)
  | methodStart d =>
    cases hi with
    | opened options name =>
      exact follows_send (.methodStart d)
        (.inMethod (m := .ofDeclaration d name) name d.title begun_nil rfl)
  | methodEnd hproper =>
    cases hi with
    | inMethod name title hbegun hrun =>
      exact follows_send (.methodEnd (MethodInjection.proper_sent hbegun hproper hrun))
        (.opened _ name)
  | body hcontinues =>
    cases hi with
    | @inMethod options m j before sent name title hbegun hrun =>
      rename_i e
      -- what was sent of the body grows by what the step of the method sends
      refine ⟨fun fault h => ?_, Phase.inMethod (sent ++ (MethodInjection.step j e).events), ?_,
        fun h => ?_⟩
      · obtain ⟨fault', hfault', rfl⟩ := Option.map_eq_some_iff.1 h
        rw [Fault.isMisuse_inMethod]
        exact MethodInjection.blameless_step j e fault' hfault'
      · have hevents : (step ⟨options, some name, some (title, j)⟩ (.body e)).events =
            (MethodInjection.step j e).events.map .body := by
          simp only [step, Step.lift, Step.events, List.map_map]
          rfl
        rw [hevents]
        exact MethodInjection.run_step hbegun hcontinues hrun
      · have hone : Stage.run MethodInjection.step j [e] =
            ((MethodInjection.step j e).state, (MethodInjection.step j e).events, none) :=
          Stage.run_cons.2 ⟨Option.map_eq_none_iff.1 h, [], rfl, (List.append_nil _).symm⟩
        exact .inMethod name title (hbegun.append hcontinues)
          (Stage.run_append.2 ⟨j, sent, _, hrun, hone, rfl⟩)

end ClassInjection

/-! ## The builder -/

namespace ClassBuilder

/-- **How far the events have come** that the builder took. -/
inductive At : ClassBuilder → Phase → Prop
  | unopened : At .empty unopened
  | opened (file : ClassFile) : At ⟨some file, none, false⟩ opened
  | inMethod {draft : Option Draft} {events : List BodyEvent} (file : ClassFile) (m : Method)
      (hbegun : Begun events) (hdraft : Drafted events draft) :
      At ⟨some file, some (m, draft), false⟩ (inMethod events)
  | closed (file : ClassFile) : At ⟨some file, none, true⟩ closed

/-- **The builder follows the phases.** -/
theorem follows : Sink.Follows receive At := by
  intro b p q e hb hnext
  cases hnext with
  | classStart c =>
    cases hb with
    | unopened => exact .opened _
  | field f =>
    cases hb with
    | opened file => exact .opened _
  | «attribute» a =>
    cases hb with
    | opened file => exact .opened _
  | classEnd =>
    cases hb with
    | opened file => exact .closed file
  | methodStart d =>
    cases hb with
    | opened file =>
      have hdraft : Drafted [] none := rfl
      exact .inMethod file _ begun_nil hdraft
  | body hcontinues =>
    cases hb with
    | @inMethod draft events file m hbegun hdraft =>
      rename_i e
      -- there is a draft exactly if the body has started
      cases draft with
      | none =>
        obtain rfl := hdraft
        cases e with
        | start maxStack maxLocals =>
          exact .inMethod file m (hbegun.append hcontinues)
            ⟨List.cons_ne_nil _ _, Draft.holds_empty maxStack maxLocals⟩
        | _ => exact (hcontinues.1.1 rfl).elim
      | some d =>
        have hstep : receive ⟨some file, some (m, some d), false⟩ (.body e) =
            (⟨some file, some (m, some (d.push e)), false⟩, none) := by
          cases e with
          | start maxStack maxLocals => exact absurd (hcontinues.1.2 trivial) hdraft.1
          | _ => rfl
        rw [hstep]
        exact .inMethod file m (hbegun.append hcontinues)
          ⟨by simp, hdraft.2.push e⟩
  | methodEnd hproper =>
    cases hb with
    | @inMethod draft events file m hbegun hdraft =>
      have hcomplete := blameless_complete (m := m) hdraft hproper hbegun.legal
      simp only [receive, closeMethod]
      cases hrun : (complete m draft).run file.pool with
      | ok m' pool => exact .opened _
      | error fault pool => exact hcomplete hrun

/-- A class that has ended has bytes. -/
theorem At.finish {b : ClassBuilder} (h : At b Phase.closed) : ∃ bytes, b.finish = .ok bytes := by
  cases h with
  | closed file => exact ⟨file.write, rfl⟩

end ClassBuilder

/-! ## Streams of events -/

namespace ClassEvent

variable {events : List ClassEvent}

/-- **A stream of events keeps to the rules.** In each method that ends, a label that an event
refers to is placed exactly once, and wherever a layout puts the labels, no variable ends before it
starts. A frame that removes or adds locals does so with one to three of them. -/
structure Orderly (events : List ClassEvent) : Prop where
  labels : ∀ front x behind, events = front ++ methodEvents x ++ behind →
    ∀ e ∈ x.2, ∀ l ∈ e.references, (x.2.filterMap label?).count l = 1
  ordered : ∀ front x behind, events = front ++ methodEvents x ++ behind →
    ∀ layout, Layout.ofItems (x.2.filterMap item?) = .ok layout →
      ∀ generic v, .localVariable generic v ∈ x.2 → ∃ start stop,
        layout.offset v.start = .ok start ∧ layout.offset v.stop = .ok stop ∧ start ≤ stop
  frames : ∀ f, .body (.frame f) ∈ events → f.Legal

end ClassEvent

namespace Phase.Run

variable {p q : Phase} {events : List ClassEvent}

theorem legal (h : Run p events q) : ∀ f, .body (.frame f) ∈ events → f.Legal := by
  induction h with
  | nil => exact fun f hf => (List.not_mem_nil hf).elim
  | cons hnext _ ih =>
    intro f hf
    obtain rfl | hf := List.mem_cons.1 hf
    · cases hnext with
      | body hcontinues => exact hcontinues.2 f rfl
    · exact ih f hf

theorem inMethod_body {before body : List BodyEvent}
    (h : Run (inMethod before) (body.map .body) q) : q = inMethod (before ++ body) := by
  induction body generalizing before with
  | nil =>
    cases h
    rw [List.append_nil]
  | cons e body ih =>
    cases h with
    | cons hnext h =>
      cases hnext
      rw [ih h, List.append_assoc, List.singleton_append]

/-- **A method that ends** has a proper body. -/
theorem proper {x : SentMethod} {front behind : List ClassEvent}
    (h : Run p (front ++ methodEvents x ++ behind) q) : Proper x.2 := by
  obtain ⟨_, h, -⟩ := h.of_append
  obtain ⟨_, -, h⟩ := h.of_append
  cases h with
  | cons hnext h =>
    cases hnext
    obtain ⟨_, hbody, h⟩ := h.of_append
    rw [inMethod_body hbody] at h
    cases h with
    | cons hnext _ =>
      cases hnext with
      | methodEnd hproper => exact hproper

/-- **Events that come in their order** keep to the rules. -/
theorem orderly (h : Run p events q) : ClassEvent.Orderly events := by
  refine ⟨fun front x behind heq e he l hl => ?_,
    fun front x behind heq layout hlayout generic v hv => ?_, h.legal⟩
  · subst heq
    have hproper := h.proper
    have hplaced := isSome_placeOf.1 (hproper.placed e he l hl)
    exact List.count_eq_one_of_mem hproper.once (mem_labels.2 hplaced)
  · subst heq
    have hproper := h.proper
    have hsound := Layout.ofItems_eq_ok hlayout
    exact ⟨_, _, hproper.offset_eq_ok hsound hv List.mem_cons_self,
      hproper.offset_eq_ok hsound hv (List.mem_cons_of_mem _ List.mem_cons_self),
      hproper.ordered_layout hsound hv⟩

end Phase.Run

/-! ## All of the work -/

/-- **No bytes lead to a fault of the sender**: a label that was never placed, a label that was
placed twice or an event out of place, whether in the name of a method or not. The events of the
class keep to the rules, and so do those that the injection sends for them, even if it stops. -/
theorem withFreshLocals_blameless (options : Options) (bytes : Bytes) :
    (∀ fault, withFreshLocals options bytes = .error fault → ¬ fault.IsMisuse) ∧
      ∀ file, ClassFile.read bytes = .ok file → ∀ i sent fault,
        Stage.run ClassInjection.step (.ofOptions options) file.script.events = (i, sent, fault) →
          ClassEvent.Orderly file.script.events ∧ ClassEvent.Orderly sent := by
  -- behind the script there is one sink, the injection in front of the builder
  have hsink := ClassInjection.follows.into ClassBuilder.follows
  refine ⟨fun fault h => ?_, fun file hread i sent fault hrun => ?_⟩
  · refine ((ClassFile.blameless_read bytes).bind fun file hread => ?_) fault h
    have hdelivered := (ClassFile.follows_script (ClassFile.stored_of_read hread)).deliver hsink
      (t := (.ofOptions options, .empty)) ⟨unopened, .unopened options, .unopened⟩
    dsimp only
    rcases hd : file.script.deliver (ClassInjection.step.into ClassBuilder.receive)
      (.ofOptions options, .empty) with ⟨⟨i, b⟩, _ | fault⟩
    · rw [hd] at hdelivered
      -- the script came to its end, so the class is closed and the builder has its bytes
      obtain ⟨q, hi, hb⟩ := hdelivered
      cases hi
      obtain ⟨bytes', hbytes'⟩ := hb.finish
      dsimp only
      rw [hbytes']
      exact blameless_ok _
    · rw [hd] at hdelivered
      exact blameless_error hdelivered
  · obtain ⟨⟨r, hevents, -⟩, -⟩ := ClassFile.follows_script (ClassFile.stored_of_read hread)
    obtain ⟨q, hsent⟩ := ClassInjection.follows.run (.unopened options) hevents hrun
    exact ⟨hevents.orderly, hsent.orderly⟩

/-- The events of a class with labels that many events refer to, and those that are sent for it. -/
theorem withFreshLocals_blameless_varied :
    (∀ fault, withFreshLocals .standard variedClass.write = .error fault → ¬ fault.IsMisuse) ∧
      ClassEvent.Orderly (variedStream stopEvents variedEvents) ∧
      ClassEvent.Orderly (variedStream stopSent variedSent) := by
  obtain ⟨i, hrun⟩ := variedClass_run
  obtain ⟨hfault, horderly⟩ := withFreshLocals_blameless .standard variedClass.write
  have hread := ClassFile.read_write stored_variedClass
  have hvaried := horderly variedClass hread i _ none (by rw [variedClass_script]; exact hrun)
  rw [variedClass_script] at hvaried
  exact ⟨hfault, hvaried⟩

end FreshLocal
