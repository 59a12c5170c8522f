import FreshLocal.Script
import Mathlib.Tactic

/-!
# Runs of a stage

What a stage sends on depends on the events before and not on the sink behind it.
So a stage in front of a sink comes apart: it turns some events into others, and
the sink takes those.

* `Stage.run`: what becomes of some events in a row.
* `Stage.feed_into`: **a sink behind a stage that refuses nothing** has taken all
  that the stage sent.
* `Stage.feed_into_of_feed`: a sink that takes all that a stage sends, also if the stage stops.
* `Script.deliver_eq_ok`: a script that is delivered has no fault.
-/

namespace FreshLocal

variable {ε σ τ : Type} {stage : Stage ε σ} {sink : Sink ε τ}

/-- What a stage sends on for some events in a row, up to the first that stops it. -/
def Stage.run (stage : Stage ε σ) : σ → List ε → σ × List ε × Option Fault
  | s, [] => (s, [], none)
  | s, e :: rest =>
    match (stage s e).fault with
    | some fault => ((stage s e).state, (stage s e).events, some fault)
    | none =>
      let (t, sent, fault) := stage.run (stage s e).state rest
      (t, (stage s e).events ++ sent, fault)

namespace Stage

variable {s t u : σ} {e : ε} {events rest sent : List ε}

theorem run_nil : stage.run s [] = (t, sent, none) ↔ t = s ∧ sent = [] := by
  simp [run, eq_comm]

/-- **A run that is not stopped**, event by event. -/
theorem run_cons : stage.run s (e :: rest) = (t, sent, none) ↔
    (stage s e).fault = none ∧ ∃ behind,
      stage.run (stage s e).state rest = (t, behind, none) ∧
        sent = (stage s e).events ++ behind := by
  cases h : (stage s e).fault with
  | some fault => simp [run, h]
  | none =>
    rcases hr : stage.run (stage s e).state rest with ⟨t', sent', fault⟩
    simp only [run, h, hr, Prod.mk.injEq, true_and]
    constructor
    · rintro ⟨rfl, rfl, rfl⟩; exact ⟨sent', ⟨rfl, rfl, rfl⟩, rfl⟩
    · rintro ⟨behind, ⟨rfl, rfl, rfl⟩, rfl⟩; exact ⟨rfl, rfl, rfl⟩

/-- A run over events in two parts. -/
theorem run_append : stage.run s (events ++ rest) = (t, sent, none) ↔
    ∃ u front behind, stage.run s events = (u, front, none) ∧
      stage.run u rest = (t, behind, none) ∧ sent = front ++ behind := by
  induction events generalizing s sent with
  | nil => simp [run_nil]
  | cons e events ih =>
    rw [List.cons_append, run_cons]
    constructor
    · rintro ⟨hf, sent', h, rfl⟩
      obtain ⟨u, front, behind, hfront, hbehind, rfl⟩ := ih.1 h
      exact ⟨u, _, behind, run_cons.2 ⟨hf, front, hfront, rfl⟩, hbehind, by simp⟩
    · rintro ⟨u, front, behind, hfront, hbehind, rfl⟩
      obtain ⟨hf, front', hfront', rfl⟩ := run_cons.1 hfront
      exact ⟨hf, front' ++ behind, ih.2 ⟨u, front', behind, hfront', hbehind, rfl⟩, by simp⟩

end Stage

namespace Sink

variable {t u : τ} {events rest : List ε}

theorem feed_cons {e : ε} : sink.feed t (e :: rest) = (u, none) ↔
    ∃ t', sink t e = (t', none) ∧ sink.feed t' rest = (u, none) := by
  rcases h : sink t e with ⟨t', _ | fault⟩ <;> simp [feed, h]

theorem feed_append : sink.feed t (events ++ rest) = (u, none) ↔
    ∃ t', sink.feed t events = (t', none) ∧ sink.feed t' rest = (u, none) := by
  induction events generalizing t with
  | nil => simp [feed]
  | cons e events ih =>
    simp only [List.cons_append, feed_cons, ih]
    constructor
    · rintro ⟨a, ha, b, hb, h⟩; exact ⟨b, ⟨a, ha, hb⟩, h⟩
    · rintro ⟨b, ⟨a, ha, hb⟩, h⟩; exact ⟨a, ha, b, hb, h⟩

end Sink

namespace Step

/-- A step is delivered if the sink takes its events and the step itself does not stop. -/
theorem deliver_eq_ok {step : Step ε σ} {s : σ} {t u : τ} :
    step.deliver sink t = ((s, u), none) ↔
      s = step.state ∧ step.fault = none ∧ sink.feed t step.events = (u, none) := by
  have key : ∀ (sent : List (ε × σ)) (t : τ), step.deliverFrom sink sent t = ((s, u), none) ↔
      s = step.state ∧ step.fault = none ∧ sink.feed t (sent.map Prod.fst) = (u, none) := by
    intro sent
    induction sent with
    | nil =>
      intro t
      simp only [deliverFrom, List.map_nil, Sink.feed, Prod.mk.injEq, and_true]
      constructor
      · rintro ⟨⟨rfl, rfl⟩, h⟩; exact ⟨rfl, h, rfl⟩
      · rintro ⟨rfl, h, rfl⟩; exact ⟨⟨rfl, rfl⟩, h⟩
    | cons first rest ih =>
      intro t
      rcases h : sink t first.1 with ⟨t', _ | fault⟩ <;> simp [deliverFrom, Sink.feed, h, ih]
  exact key step.sent t

end Step

/-- A step whose events the sink takes is stopped by itself only. -/
theorem Step.deliver_of_feed {step : Step ε σ} {t u : τ}
    (h : sink.feed t step.events = (u, none)) :
    step.deliver sink t = ((step.state, u), step.fault) := by
  have key : ∀ (sent : List (ε × σ)) (t : τ), sink.feed t (sent.map Prod.fst) = (u, none) →
      step.deliverFrom sink sent t = ((step.state, u), step.fault) := by
    intro sent
    induction sent with
    | nil =>
      intro t h
      cases h
      rfl
    | cons first rest ih =>
      intro t h
      obtain ⟨t', hfirst, hrest⟩ := Sink.feed_cons.1 h
      simp only [deliverFrom, hfirst]
      exact ih t' hrest
  exact key step.sent t h

/-- **A sink behind a stage that takes all that is sent** hears of the fault of the stage only. -/
theorem Stage.feed_into_of_feed {s s' : σ} {t u : τ} {events sent : List ε} {fault : Option Fault}
    (hrun : stage.run s events = (s', sent, fault)) (hfeed : sink.feed t sent = (u, none)) :
    Sink.feed (stage.into sink) (s, t) events = ((s', u), fault) := by
  induction events generalizing s t sent with
  | nil =>
    cases hrun
    cases hfeed
    rfl
  | cons e rest ih =>
    rw [Stage.run] at hrun
    cases hstep : (stage s e).fault with
    | some stopped =>
      rw [hstep] at hrun
      cases hrun
      have hdeliver := Step.deliver_of_feed hfeed
      rw [hstep] at hdeliver
      simp only [Sink.feed, Stage.into, hdeliver]
    | none =>
      rw [hstep] at hrun
      rcases hrest : stage.run (stage s e).state rest with ⟨s₁, behind, fault₁⟩
      rw [hrest] at hrun
      cases hrun
      obtain ⟨t', hfirst, hbehind⟩ := Sink.feed_append.1 hfeed
      have hdeliver := Step.deliver_of_feed hfirst
      rw [hstep] at hdeliver
      simp only [Sink.feed, Stage.into, hdeliver]
      exact ih hrest hbehind

/-- **A sink behind a stage** takes what the stage sends on. -/
theorem Stage.feed_into {s s' : σ} {t t' : τ} {events : List ε} :
    Sink.feed (stage.into sink) (s, t) events = ((s', t'), none) ↔
      ∃ sent, stage.run s events = (s', sent, none) ∧ sink.feed t sent = (t', none) := by
  induction events generalizing s t with
  | nil =>
    simp only [Sink.feed, Prod.mk.injEq, and_true, run_nil]
    constructor
    · rintro ⟨rfl, rfl⟩; exact ⟨[], ⟨rfl, rfl⟩, rfl⟩
    · rintro ⟨_, ⟨rfl, rfl⟩, h⟩; cases h; exact ⟨rfl, rfl⟩
  | cons e rest ih =>
    rw [Sink.feed_cons]
    constructor
    · rintro ⟨⟨s₁, t₁⟩, hstep, hrest⟩
      obtain ⟨rfl, hf, hsent⟩ := Step.deliver_eq_ok.1 hstep
      obtain ⟨behind, hrun, hbehind⟩ := ih.1 hrest
      exact ⟨_, run_cons.2 ⟨hf, behind, hrun, rfl⟩, Sink.feed_append.2 ⟨t₁, hsent, hbehind⟩⟩
    · rintro ⟨_, hrun, hfeed⟩
      obtain ⟨hf, behind, hrest, rfl⟩ := run_cons.1 hrun
      obtain ⟨t₁, hsent, hbehind⟩ := Sink.feed_append.1 hfeed
      exact ⟨(_, t₁), Step.deliver_eq_ok.2 ⟨rfl, hf, hsent⟩, ih.2 ⟨behind, hrest, hbehind⟩⟩

/-- **A script that is delivered** has no fault, and the sink took all of its events. -/
theorem Script.deliver_eq_ok {sink : Sink ClassEvent τ} {script : Script} {t u : τ} :
    script.deliver sink t = (u, none) ↔
      script.fault = none ∧ sink.feed t script.events = (u, none) := by
  have key : ∀ (events : List ClassEvent) (title : Option String) (t : τ),
      Script.deliverFrom sink script.fault title events t = (u, none) ↔
        script.fault = none ∧ sink.feed t events = (u, none) := by
    intro events
    induction events with
    | nil => intro title t; simp [deliverFrom, Sink.feed, and_comm]
    | cons e rest ih =>
      intro title t
      rcases h : sink t e with ⟨t', _ | fault⟩ <;> simp [deliverFrom, Sink.feed, h, ih]
  exact key script.events none t

end FreshLocal
