import FreshLocal.Fault

/-!
# Stages

A **sink** takes events one by one and may refuse one; it then keeps a state
from which it can go on. A **step** of a stage says what the stage does with one
event: the events it sends on, and the state it is left in. Sending to a sink is
a matter of its own, so a step does not depend on what is behind the stage.

* `Sink.feed`: give a sink some events, up to the first that it refuses.
* `Step.deliver`: send the events of a step to a sink.
* `Stage.into`: a stage in front of a sink is a sink.
-/

namespace FreshLocal

/-- Takes an event and goes on with a new state; a fault says that it refused the event. -/
abbrev Sink (ε τ : Type) := τ → ε → τ × Option Fault

/-- Give a sink some events, up to the first that it refuses. -/
def Sink.feed {ε τ : Type} (sink : Sink ε τ) : τ → List ε → τ × Option Fault
  | t, [] => (t, none)
  | t, e :: rest =>
    match sink t e with
    | (t, none) => feed sink t rest
    | (t, some fault) => (t, some fault)

/-- The sink that keeps all events, the last one in front. -/
def Sink.record {ε : Type} : Sink ε (List ε) := fun events e => (e :: events, none)

/-- What a stage with states of type `σ` does with one event. -/
structure Step (ε σ : Type) where
  /-- The events to be sent on, each with the state to keep if it is refused. -/
  sent : List (ε × σ)
  /-- The state to keep if no event is refused. -/
  state : σ
  /-- What stops the stage after it sent its events. -/
  fault : Option Fault
  /-- The method in whose name the sink behind the stage refuses events. -/
  method : Option String

namespace Step

variable {ε σ τ : Type}

/-- Send nothing. -/
def stop (s : σ) (fault : Fault) : Step ε σ := ⟨[], s, some fault, none⟩

/-- Send one event. -/
def send (s : σ) (e : ε) : Step ε σ := ⟨[(e, s)], s, none, none⟩

/-- The events that are sent on. -/
def events (step : Step ε σ) : List ε := step.sent.map Prod.fst

/-- The fault in the name of a method, if there is one. -/
def blame (method : Option String) (fault : Fault) : Fault :=
  match method with
  | none => fault
  | some m => .inMethod m fault

/-- Change events and states, and do everything in the name of a method. -/
def lift {ε' σ' : Type} (event : ε → ε') (state : σ → σ') (method : String) (step : Step ε σ) :
    Step ε' σ' :=
  ⟨step.sent.map fun (e, s) => (event e, state s), state step.state,
    step.fault.map (.inMethod method), some method⟩

/-- Send events to a sink and go on as the step says. -/
def deliverFrom (sink : Sink ε τ) (step : Step ε σ) :
    List (ε × σ) → τ → (σ × τ) × Option Fault
  | [], t => ((step.state, t), step.fault)
  | (e, kept) :: rest, t =>
    match sink t e with
    | (t, none) => deliverFrom sink step rest t
    | (t, some fault) => ((kept, t), some (blame step.method fault))

/-- Send the events of a step to a sink. -/
def deliver (sink : Sink ε τ) (step : Step ε σ) (t : τ) : (σ × τ) × Option Fault :=
  deliverFrom sink step step.sent t

end Step

/-- A stage answers each event with a step. -/
abbrev Stage (ε σ : Type) := σ → ε → Step ε σ

/-- A stage in front of a sink is a sink. -/
def Stage.into {ε σ τ : Type} (stage : Stage ε σ) (sink : Sink ε τ) : Sink ε (σ × τ) :=
  fun (s, t) e => (stage s e).deliver sink t

end FreshLocal
