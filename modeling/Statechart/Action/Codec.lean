import Statechart.Action.Basic
import Statechart.Expression.Codec
import Statechart.Json.Record

/-!
# Written actions

The JSON form of actions.  A string names an implementation.  An object has a `type`: one
of the built-in types, whose body must fit, or again the name of an implementation.
-/

namespace Statechart.Action

open Json (required? optional?)

/-- The written form. -/
def toJson : Action → Json
  | .named name => .str name
  | .inline name _ => .str name
  | .send event delay target id =>
    Json.objOf [("type", some (.str "send")), ("event", some event.toJson),
      ("delay", delay.map Delay.toJson), ("to", target.map Json.str), ("id", id.map Json.str)]
  | .sendParent event => .obj [("type", .str "sendParent"), ("event", event.toJson)]
  | .raise event => .obj [("type", .str "raise"), ("event", event.toJson)]
  | .log expression label =>
    Json.objOf [("type", some (.str "log")), ("expr", expression.map Expression.toJson),
      ("label", label.map Json.str)]
  | .assign mapping => .obj [("type", .str "assign"), ("assignment", mapping.toJson)]
  | .cancel sendId => .obj [("type", .str "cancel"), ("sendId", .str sendId)]
  | .start id => .obj [("type", .str "start"), ("id", .str id)]
  | .stop id => .obj [("type", .str "stop"), ("id", .str id)]

/-- The body of a built-in action of the given short type; any other type names an
implementation. -/
def ofBody? (type short : String) (fields : List (String × Json)) : Option Action :=
  match short with
  | "send" => do
    let event ← required? fields ["event"] EventExpression.ofJson?
    let delay ← optional? fields ["delay"] Delay.ofJson?
    let target ← optional? fields ["to"] Json.string?
    let id ← optional? fields ["id"] Json.string?
    some (.send event delay target id)
  | "sendParent" => (required? fields ["event"] EventExpression.ofJson?).map .sendParent
  | "raise" => (required? fields ["event"] EventExpression.ofJson?).map .raise
  | "log" => do
    let expression ← optional? fields ["expr"] Expression.ofJson?
    let label ← optional? fields ["label"] Json.string?
    some (.log expression label)
  | "assign" => (required? fields ["assignment"] Mapping.ofJson?).map .assign
  | "cancel" => (required? fields ["sendId"] Json.string?).map .cancel
  | "start" => (required? fields ["id"] Json.string?).map .start
  | "stop" => (required? fields ["id"] Json.string?).map .stop
  | _ => some (.named type)

/-- The action that a value spells. -/
def ofJson? (value : Json) : Option Action :=
  match value.merged with
  | .str name => some (.named name)
  | .obj fields =>
    match fields.lookup "type" with
    | some (.str type) => ofBody? type ((Text.after? "harel." type).getD type) fields
    | _ => none
  | _ => none

end Statechart.Action
