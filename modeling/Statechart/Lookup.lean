import Statechart.Event
import Statechart.Decimal.Natural
import Statechart.Text.Blank

/-!
# Lookup by path

Dotted paths into a context and an event.  `Lookup.field` follows the segments of a path
through objects and arrays; what is missing is null.  `Lookup.path?` reads a path that
begins with `ctx` or `event`.
-/

namespace Statechart.Lookup

/-- The value that one segment selects: a field of an object by its key, an item of an
array by its index. -/
def segment (value : Json) (key : String) : Json :=
  match value with
  | .obj fields => (fields.lookup key).getD .null
  | .arr items => ((Decimal.natural? (1 <<< 64) key).bind (items[·]?)).getD .null
  | _ => .null

/-- The value at a dotted path. -/
def field (value : Json) (path : String) : Json :=
  (Text.segments '.' path).foldl segment value

/-- The value at a dotted path of an event: `type` is the name, any other path leads into
an object payload, and `data` is a payload of another kind. -/
def eventField (event : Event) (path : String) : Json :=
  if path = "type" then .str event.name
  else
    match event.data with
    | .obj fields => field (.obj fields) path
    | other => if path = "data" then other else .null

/-- The value at a path that begins with `ctx` or `event`. -/
def path? (context : Json) (event : Event) (path : String) : Option Json :=
  let path := String.ofList (Text.trim path.toList)
  if path = "ctx" then some context
  else if path = "event" then some event.wire
  else
    match Text.after? "ctx." path, Text.after? "event." path with
    | some rest, _ => some (field context rest)
    | none, some rest => some (eventField event rest)
    | none, none => none

end Statechart.Lookup
