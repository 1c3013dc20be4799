import Statechart.Action.Resolved
import Statechart.Json.Record
import Statechart.NodeSet
import Statechart.StateValue

/-!
# Snapshots

The result of one resolution: the active nodes and their address, the context, the actions
to carry out and the recorded histories.
-/

namespace Statechart

/-- The recorded configurations of history nodes, in increasing order of the nodes. -/
abbrev History := List (Nat × List Nat)

/-- The part of a snapshot that outlives the machine. -/
structure Persisted where
  value : StateValue
  context : Json

namespace Persisted

/-- The written form. -/
def toJson (p : Persisted) : Json :=
  .obj [("value", p.value.toJson), ("context", p.context)]

/-- The persisted state that a value spells; the context may be left out. -/
def ofJson? (v : Json) : Option Persisted := do
  let fields ← Json.record? ["value", "context"] v
  let value ← Json.required? fields ["value"] StateValue.ofJson?
  let context ← Json.defaulted? fields ["context"] .null some
  some { value, context }

end Persisted

/-- A snapshot of a machine. -/
structure Snapshot where
  value : StateValue
  context : Json
  actions : List ResolvedAction
  /-- The event that the snapshot answers. -/
  event : Event
  changed : Bool
  /-- Whether a final child of the root is active. -/
  done : Bool
  doneData : Option Json
  /-- All active nodes. -/
  configuration : NodeSet
  history : History

namespace Snapshot

/-- Whether a dotted path is active. -/
def covers (s : Snapshot) (path : String) : Bool :=
  s.value.covers path

/-- Whether a node is active. -/
def isActive (s : Snapshot) (n : Nat) : Bool :=
  s.configuration.contains n

/-- The types of the actions. -/
def actionTypes (s : Snapshot) : List String :=
  s.actions.map ResolvedAction.type

/-- The part that outlives the machine. -/
def persist (s : Snapshot) : Persisted :=
  ⟨s.value, s.context⟩

/-- The snapshot after an event that selects no transition. -/
def unchanged (s : Snapshot) (event : Event) : Snapshot :=
  { s with actions := [], event, changed := false }

/-- The written form with the given form of the actions. -/
def jsonWith (actions : Json) (s : Snapshot) : Json :=
  Json.objOf [("value", some s.value.toJson), ("context", some s.context),
    ("actions", some actions), ("event", some s.event.wire), ("changed", some (.bool s.changed)),
    ("done", some (.bool s.done)), ("doneData", s.doneData)]

/-- The written form. -/
def toJson (s : Snapshot) : Json :=
  s.jsonWith (.arr (s.actions.map ResolvedAction.toJson))

end Snapshot

end Statechart
