import Statechart.Action.Codec
import Statechart.Chart.Basic

/-!
# Resolved actions

Actions with everything evaluated, ready to be carried out: implementations found, events
and delays computed, invocations looked up with their data.
-/

namespace Statechart

/-- Where a sent event goes: to the sender itself, to the machine that invoked it, or to
one of its own live invocations. -/
inductive Destination where
  | myself
  | parent
  | child (id : String)
  deriving DecidableEq, Repr

namespace Destination

/-- The target that stands for the invoking machine. -/
def parentTarget : String := "#_parent"

/-- The destination that a target names. -/
def ofTarget : Option String → Destination
  | none => .myself
  | some target =>
    if target = parentTarget then .parent else .child (Text.dropLeading '#' target)

/-- The written form. -/
def toJson : Destination → Json
  | .myself => .obj [("kind", .str "myself")]
  | .parent => .obj [("kind", .str "parent")]
  | .child id => .obj [("kind", .str "child"), ("id", .str id)]

end Destination

/-- An evaluated send. -/
structure Send where
  event : Event
  destination : Destination
  /-- The delay in microseconds. -/
  delay : Option Nat
  id : Option String

/-- What is to be done for a resolved action. -/
inductive Duty where
  | execute (effect : Effect)
  | send (send : Send)
  | log (expression : Option Expression) (label : Option String)
  | cancel (sendId : String)
  | start (invocation : Invocation) (data : Option Json)
  | stop (id : String)
  | unresolved (reason : String)

/-- A resolved action. -/
structure ResolvedAction where
  type : String
  duty : Duty
  /-- The event of the microstep that the action belongs to. -/
  trigger : Event

namespace ResolvedAction

/-- Whether the action could not be resolved. -/
def isUnresolved (a : ResolvedAction) : Bool :=
  match a.duty with
  | .unresolved _ => true
  | _ => false

/-- The invocation that the action starts. -/
def started? (a : ResolvedAction) : Option Invocation :=
  match a.duty with
  | .start invocation _ => some invocation
  | _ => none

/-- The written form of what is to be done. -/
def dutyFields : Duty → List (String × Option Json)
  | .execute _ => []
  | .send s =>
    [("event", some s.event.wire), ("to", some s.destination.toJson),
      ("delay", s.delay.map (fun d => .int (d / 1000))), ("id", s.id.map Json.str)]
  | .log _ label => [("label", label.map Json.str)]
  | .cancel sendId => [("sendId", some (.str sendId))]
  | .start invocation data =>
    [("id", some (.str invocation.id)), ("src", some (.str invocation.src)), ("data", data)]
  | .stop id => [("id", some (.str id))]
  | .unresolved reason => [("unresolved", some (.str reason))]

/-- The written form. -/
def toJson (a : ResolvedAction) : Json :=
  Json.objOf (("type", some (.str a.type)) :: dutyFields a.duty)

end ResolvedAction

end Statechart
