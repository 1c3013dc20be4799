import Statechart.Configuration
import Statechart.Resolution.Macrostep

/-!
# Machines

A machine is a chart with the implementations that the caller supplies, a context to start
with and a bound of the microsteps.  Every operation takes a snapshot and gives a new one.
-/

namespace Statechart

/-- A machine. -/
structure Machine where
  chart : Chart
  implementations : Implementations
  context : Json
  /-- The bound of the microsteps of one reaction. -/
  limit : Nat

namespace Machine

/-- The bound of the microsteps of a machine that sets none. -/
def defaultLimit : Nat := 128

/-- The machine of a chart, without implementations. -/
def ofChart (chart : Chart) : Machine where
  chart := chart
  implementations := {}
  context := chart.context
  limit := defaultLimit

/-- The machine with other implementations. -/
def withImplementations (imps : Implementations) (m : Machine) : Machine :=
  { m with implementations := imps }

/-- The machine with another context to start with. -/
def withContext (context : Json) (m : Machine) : Machine :=
  { m with context }

/-- The machine with another bound of the microsteps, at least one. -/
def withLimit (limit : Nat) (m : Machine) : Machine :=
  { m with limit := max limit 1 }

/-- The snapshot of a settled resolution. -/
def snapshotOf (m : Machine) (event : Event) (previous : Option Snapshot) (p : Progress) :
    Snapshot :=
  let value := m.chart.address p.configuration
  let context := p.collected.context
  let actions := p.collected.actions
  let changed := match previous with
    | some s => s.value != value || s.context != context || !actions.isEmpty
    | none => false
  { value, context, actions, event, changed, done := p.done, doneData := p.doneData,
    configuration := p.configuration, history := p.history }

/-- The snapshot of the default configuration. -/
def initial (m : Machine) : Except Fault Snapshot :=
  (Progress.start m.chart m.implementations m.limit .init m.context).map
    (m.snapshotOf .init none)

/-- The resolution that goes on from a snapshot. -/
def resume (s : Snapshot) : Progress where
  configuration := s.configuration
  history := s.history
  collected := { context := s.context }

/-- The snapshot after an event; an event that takes no transition, or comes when the
machine is done, leaves the snapshot as it is. -/
def transition (m : Machine) (s : Snapshot) (event : Event) : Except Fault Snapshot :=
  if s.done then .ok (s.unchanged event)
  else
    let p := resume s
    match p.enabled m.chart m.implementations event false with
    | [] => .ok (s.unchanged event)
    | ts =>
      (p.react m.chart m.implementations m.limit ts event).map (m.snapshotOf event (some s))

/-- Whether an entry action runs again when a state is restored: starts of invocations and
delayed transitions. -/
def restarts : Action → Bool
  | .start _ => true
  | .send _ _ _ (some id) => Text.beginsWith Chart.afterLead id
  | _ => false

/-- The collected entry actions that run again when a configuration is restored. -/
def restarted (m : Machine) (configuration : NodeSet) (context : Json) : Collection :=
  configuration.foldl (fun c n =>
    c.collect m.chart m.implementations .init
      ((((m.chart.node? n).map Node.entry).getD []).filter restarts)) { context }

/-- The snapshot that a persisted state stands for; its actions restart the invocations and
the delayed transitions of the active nodes. -/
def restore (m : Machine) (persisted : Persisted) : Except Fault Snapshot := do
  let configuration ← m.chart.configurationOf persisted.value
  let p : Progress :=
    { configuration, history := [], collected := { context := persisted.context } }
  .ok { m.snapshotOf .init none p with
        actions := (m.restarted configuration persisted.context).actions }

/-- The snapshot after an event in the state that a bare value names, with the context of
the machine. -/
def transitionFrom (m : Machine) (value : StateValue) (event : Event) :
    Except Fault Snapshot := do
  let s ← m.restore ⟨value, m.context⟩
  m.transition { s with actions := [] } event

/-- The value of an expression with the functions of the machine. -/
def eval (m : Machine) (e : Expression) : Computation Json :=
  e.eval m.implementations.functions

end Machine

end Statechart
