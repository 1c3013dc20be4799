import Statechart.Expression.Basic

/-!
# Written expressions

The JSON form of expressions.  An expression is an object with the single field `value`,
`path` or `expr`; a mapping is an expression or an object of expressions.  A function in
place has no form that can be read back: it is written under a mark.
-/

namespace Statechart

/-- What stands for a function in place. -/
def inlineMark : Json := .str "<inline>"

namespace Expression

/-- The written form. -/
def toJson : Expression → Json
  | .value v => .obj [("value", v)]
  | .path p => .obj [("path", .str p)]
  | .named name => .obj [("expr", .str name)]
  | .function _ => .obj [("func", inlineMark)]

/-- The expression of a single field. -/
def ofField? (key : String) (value : Json) : Option Expression :=
  if key = "value" then some (.value value.merged)
  else if key = "path" then value.string?.map .path
  else if key = "expr" then value.string?.map .named
  else none

/-- The expression that a value spells. -/
def ofJson? : Json → Option Expression
  | .obj [(key, v)] => ofField? key v
  | _ => none

end Expression

namespace Mapping

/-- The written form. -/
def toJson : Mapping → Json
  | .whole e => e.toJson
  | .fields entries => .obj (entries.map (fun f => (f.1, f.2.toJson)))

/-- The entries that fields spell, in increasing order of the keys. -/
def ofFields? (fields : List (String × Json)) : Option (List (String × Expression)) :=
  (fields.mapM (fun f => (Expression.ofJson? f.2).map (fun e => (f.1, e)))).map
    Association.sorted

/-- The mapping that a value spells; a single field that spells an expression is one. -/
def ofJson? (value : Json) : Option Mapping :=
  match Expression.ofJson? value with
  | some e => some (.whole e)
  | none =>
    match value with
    | .obj entries => (ofFields? entries).map .fields
    | _ => none

end Mapping

namespace EventExpression

/-- The written form. -/
def toJson : EventExpression → Json
  | .fixed event => event.wire
  | .named name => .obj [("expr", .str name)]
  | .function _ => .obj [("expr", inlineMark)]

/-- The event expression that a value spells: an object with a string `expr` and without
`type` names a function, anything else must be an event. -/
def ofJson? (value : Json) : Option EventExpression :=
  match value.field? "expr", value.field? "type" with
  | some (.str name), none => some (.named name)
  | _, _ => (Event.ofJson value).toOption.map .fixed

end EventExpression

namespace Delay

/-- The written form. -/
def toJson : Delay → Json
  | .millis n => .int n
  | .named name => .str name

/-- The delay that a value spells. -/
def ofJson? : Json → Option Delay
  | .str name => some (.named name)
  | other => other.natural?.map .millis

end Delay

end Statechart
