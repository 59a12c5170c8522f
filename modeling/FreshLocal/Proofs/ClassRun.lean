import FreshLocal.Injection.Class
import FreshLocal.Proofs.ClassEvents
import FreshLocal.Proofs.StageRun

/-!
# The injection into a class

The injection into a class sends on what it gets, but the events of each body go
through an injection of their own. So a class comes out with the same methods in
the same order, and each with the body that the injection makes of its body.

* `ClassInjection.Injected`: what becomes of a method.
* `ClassInjection.run_body`, `run_method`, `run_methods`: bodies, methods and all of them.
* `ClassInjection.run_class`: **what becomes of a class**.
-/

namespace FreshLocal.ClassInjection

variable {i j : ClassInjection} {options : Options} {name : BinaryName} {title : String}
  {m : MethodInjection} {sent : List ClassEvent}

/-- What becomes of a method of the class with the given name. -/
def Injected (options : Options) (name : BinaryName) (x x' : SentMethod) : Prop :=
  x'.1 = x.1 ∧ ∃ m, Stage.run MethodInjection.step
    (.ofAllocator (options.allocator (.ofDeclaration x.1 name))) x.2 = (m, x'.2, none)

/-- **The events of a body** go through the injection into the method, and are refused in its
name. -/
theorem run_map_body (events : List BodyEvent) (hi : i.method = some (title, m)) :
    Stage.run step i (events.map .body) =
      ({ i with method := some (title, (Stage.run MethodInjection.step m events).1) },
        (Stage.run MethodInjection.step m events).2.1.map .body,
        (Stage.run MethodInjection.step m events).2.2.map (.inMethod title)) := by
  induction events generalizing i m with
  | nil => simp only [List.map_nil, Stage.run, ← hi, Option.map_none]
  | cons e events ih =>
    have hstep : step i (.body e) = (m.step e).lift .body
        (fun m => { i with method := some (title, m) }) title := by
      simp only [step, hi]
    have hevents : (step i (.body e)).events = (m.step e).events.map .body := by
      rw [hstep]
      simp only [Step.events, Step.lift, List.map_map]
      rfl
    have hfault : (step i (.body e)).fault = (m.step e).fault.map (.inMethod title) := by
      rw [hstep]
      rfl
    have hstate : (step i (.body e)).state =
        { i with method := some (title, (m.step e).state) } := by
      rw [hstep]
      rfl
    rw [List.map_cons, Stage.run, Stage.run, hfault, hevents, hstate]
    cases (m.step e).fault with
    | some fault => rfl
    | none =>
      simp only [Option.map_none]
      rw [ih rfl, List.map_append]

theorem run_body {events : List BodyEvent} (hi : i.method = some (title, m))
    (h : Stage.run step i (events.map .body) = (j, sent, none)) :
    ∃ m' events', Stage.run MethodInjection.step m events = (m', events', none) ∧
      sent = events'.map .body ∧ j = { i with method := some (title, m') } := by
  rw [run_map_body events hi] at h
  rcases hrun : Stage.run MethodInjection.step m events with ⟨m', events', fault⟩
  rw [hrun] at h
  obtain ⟨hj, hsent, hfault⟩ := Prod.mk.inj h |>.imp_right Prod.mk.inj
  obtain rfl : fault = none := Option.map_eq_none_iff.1 hfault
  exact ⟨m', events', rfl, hsent.symm, hj.symm⟩

/-- **A method** keeps its declaration. -/
theorem run_method {x : SentMethod}
    (h : Stage.run step ⟨options, some name, none⟩ (methodEvents x) = (j, sent, none)) :
    ∃ x', Injected options name x x' ∧ sent = methodEvents x' ∧
      j = ⟨options, some name, none⟩ := by
  rw [methodEvents, Stage.run_cons] at h
  obtain ⟨-, behind, h, rfl⟩ := h
  obtain ⟨i', front, last, hbody, hend, rfl⟩ := Stage.run_append.1 h
  obtain ⟨m', events', hrun, rfl, rfl⟩ := run_body rfl hbody
  obtain ⟨-, _, hnil, rfl⟩ := Stage.run_cons.1 hend
  obtain ⟨rfl, rfl⟩ := Stage.run_nil.1 hnil
  exact ⟨(x.1, events'), ⟨rfl, m', hrun⟩, rfl, rfl⟩

/-- **All methods**, one after the other. -/
theorem run_methods {ms : List SentMethod}
    (h : Stage.run step ⟨options, some name, none⟩ (ms.flatMap methodEvents) = (j, sent, none)) :
    ∃ ms', List.Forall₂ (Injected options name) ms ms' ∧ sent = ms'.flatMap methodEvents ∧
      j = ⟨options, some name, none⟩ := by
  induction ms generalizing sent with
  | nil =>
    obtain ⟨rfl, rfl⟩ := Stage.run_nil.1 h
    exact ⟨[], .nil, rfl, rfl⟩
  | cons x ms ih =>
    rw [List.flatMap_cons] at h
    obtain ⟨i', front, behind, hmethod, hrest, rfl⟩ := Stage.run_append.1 h
    obtain ⟨x', hx, rfl, rfl⟩ := run_method hmethod
    obtain ⟨ms', hms, rfl, rfl⟩ := ih hrest
    exact ⟨x' :: ms', .cons hx hms, rfl, rfl⟩

/-- Events that are sent on as they are. -/
theorem run_pass {events : List ClassEvent} (hpass : ∀ e ∈ events, step i e = .send i e)
    (h : Stage.run step i events = (j, sent, none)) : sent = events ∧ j = i := by
  induction events generalizing sent with
  | nil =>
    obtain ⟨rfl, rfl⟩ := Stage.run_nil.1 h
    exact ⟨rfl, rfl⟩
  | cons e events ih =>
    rw [Stage.run_cons, hpass e (by simp)] at h
    obtain ⟨-, behind, hrest, rfl⟩ := h
    obtain ⟨rfl, rfl⟩ := ih (fun e he => hpass e (by simp [he])) hrest
    exact ⟨rfl, rfl⟩

/-- **What becomes of a class**: only the bodies of its methods change. -/
theorem run_class {c : ClassDeclaration} {fields : List Field} {ms : List SentMethod}
    {attributes : List Attribute}
    (h : Stage.run step (.ofOptions options) (classEvents c fields ms attributes) =
      (j, sent, none)) :
    ∃ ms', List.Forall₂ (Injected options c.name) ms ms' ∧
      sent = classEvents c fields ms' attributes := by
  have hpass : ∀ {α : Type} (f : α → ClassEvent) (xs : List α),
      (∀ x, step ⟨options, some c.name, none⟩ (f x) = .send ⟨options, some c.name, none⟩ (f x)) →
        ∀ e ∈ xs.map f, step ⟨options, some c.name, none⟩ e =
          .send ⟨options, some c.name, none⟩ e := by
    intro α f xs hf e he
    obtain ⟨x, -, rfl⟩ := List.mem_map.1 he
    exact hf x
  rw [classEvents, Stage.run_cons] at h
  obtain ⟨-, behind, hrun, rfl⟩ := h
  obtain ⟨i₁, front, rest, hfields, hrest, rfl⟩ := Stage.run_append.1 hrun
  obtain ⟨rfl, rfl⟩ := run_pass (hpass .field fields fun _ => rfl) hfields
  obtain ⟨i₂, sentMethods, last, hmethods, hlast, rfl⟩ := Stage.run_append.1 hrest
  obtain ⟨ms', hms, rfl, rfl⟩ := run_methods hmethods
  obtain ⟨i₃, sentAttributes, ending, hattributes, hending, rfl⟩ := Stage.run_append.1 hlast
  obtain ⟨rfl, rfl⟩ := run_pass (hpass .attribute attributes fun _ => rfl) hattributes
  obtain ⟨-, _, hnil, rfl⟩ := Stage.run_cons.1 hending
  obtain ⟨rfl, rfl⟩ := Stage.run_nil.1 hnil
  exact ⟨ms', hms, rfl⟩

end FreshLocal.ClassInjection
