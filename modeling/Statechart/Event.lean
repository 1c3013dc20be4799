import Statechart.Json.Basic
import Statechart.Text.Segments

/-!
# Events

An event is a name with a payload.  On the wire it is an object with the name under the
key `type` and the fields of the payload beside it; a bare string stands for an event
without payload.  `Event.wire` writes this form and `Event.ofJson` reads it; where a document
repeats a key, the last value counts.
-/

namespace Statechart

/-- An event that a machine takes. -/
structure Event where
  name : String
  data : Json
  deriving Inhabited, Repr

namespace Event

/-- Events are equal when their names and their payloads are. -/
def beq (a b : Event) : Bool :=
  a.name == b.name && a.data == b.data

instance : BEq Event := ⟨beq⟩

/-- The event without payload. -/
def bare (name : String) : Event :=
  ⟨name, .null⟩

/-- The name of the event that produces the first snapshot. -/
def initName : String := "harel.init"

/-- The event that produces the first snapshot. -/
def init : Event :=
  bare initName

/-- The name of the event that tells of a failed action expression. -/
def executionErrorName : String := "error.execution"

/-- What the name of a completion event of an invocation begins with. -/
def doneInvocation : String := "done.invoke."

/-- What the name of a failure event of an invocation begins with. -/
def failedInvocation : String := "error.invoke."

/-- What the name of a completion event of a state begins with. -/
def doneState : String := "done.state."

/-- The completion event of the invocation `id`. -/
def invocationDone (id : String) (data : Json) : Event :=
  ⟨doneInvocation ++ id, data⟩

/-- The failure event of the invocation `id`. -/
def invocationFailed (id : String) (data : Json) : Event :=
  ⟨failedInvocation ++ id, data⟩

/-- The completion event of the state `id`. -/
def stateDone (id : String) (data : Json) : Event :=
  ⟨doneState ++ id, data⟩

/-- Whether the event produced the first snapshot. -/
def isInit (event : Event) : Bool :=
  event.name == initName

/-- Whether only the machine itself makes events of this name. -/
def isReserved (name : String) : Bool :=
  Text.beginsWith doneInvocation name || Text.beginsWith failedInvocation name ||
    Text.beginsWith doneState name || name == initName

/-- The descriptor that stands for every named event. -/
def wildcard : String := "*"

/-- Whether a name lies in the namespace `space`: it is `space` or goes on with a point. -/
def inNamespace (space name : String) : Bool :=
  name == space || Text.beginsWith (space ++ ".") name

/-- Whether a descriptor matches the event: `*` matches every named event, a namespace
followed by `.*` matches the names in it, and any other descriptor its own name. -/
def matchesDescriptor (event : Event) (descriptor : String) : Bool :=
  if descriptor = wildcard then event.name != ""
  else
    match Text.before? ".*" descriptor with
    | some space => inNamespace space event.name
    | none => descriptor == event.name

/-- The wire form of an event. -/
def wire (event : Event) : Json :=
  let rest := match event.data with
    | .null => []
    | .obj fields => fields.filter (fun f => f.1 ≠ "type")
    | other => [("data", other)]
  .obj (("type", .str event.name) :: rest)

/-- Why a value is no event. -/
inductive Refusal where
  | nameNotString
  | nameMissing
  | wrongKind (value : Json)
  deriving Repr

/-- The payload that the fields beside the name make: nothing, a single `data` that is no
object, or else an object. -/
def payload (fields : List (String × Json)) : Json :=
  match fields with
  | [] => .null
  | [("data", value)] => if value.isObject then .obj fields else value
  | _ => .obj fields

/-- The name and the fields beside it, read one field after the other behind those that were read
before: of several names the last one counts, each must be a string, and a key that repeats has
its last value at its first place. -/
def gather (name : Option String) (rest : List (String × Json)) :
    List (String × Json) → Except Refusal (Option String × List (String × Json))
  | [] => .ok (name, rest)
  | (key, value) :: fields =>
    if key = "type" then
      match value with
      | .str s => gather (some s) rest fields
      | _ => .error .nameNotString
    else gather name (Association.insert key value.merged rest) fields

/-- The event that a value denotes. -/
def ofJson : Json → Except Refusal Event
  | .str name => .ok (bare name)
  | .obj fields =>
    match gather none [] fields with
    | .ok (some name, rest) => .ok ⟨name, payload rest⟩
    | .ok (none, _) => .error .nameMissing
    | .error refusal => .error refusal
  | other => .error (.wrongKind other)

end Event

end Statechart
