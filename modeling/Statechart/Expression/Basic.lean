import Statechart.Lookup
import Statechart.Json.Printer

/-!
# Expressions

Values, contexts, events and delays computed from a context and an event.  An `Expression`
is a literal, a path, the name of a function that the caller supplies, or a function in
place.  A `Mapping` computes a context: a whole value or field by field.  `EventExpression`
and `Delay` are the arguments of actions that send.
-/

namespace Statechart

/-- A function of a context and an event; it may fail with a reason. -/
abbrev Computation (α : Type) := Json → Event → Except String α

/-- Functions that the caller supplies, by name. -/
abbrev Named (α : Type) := String → Option α

/-- A value computed from a context and an event. -/
inductive Expression where
  | value (value : Json)
  | path (path : String)
  | named (name : String)
  | function (f : Computation Json)

namespace Expression

/-- Expressions are equal when they are written equally; functions are equal to none. -/
def beq : Expression → Expression → Bool
  | .value a, .value b => a == b
  | .path a, .path b => a == b
  | .named a, .named b => a == b
  | _, _ => false

instance : BEq Expression := ⟨beq⟩

/-- The value of the function of the given name. -/
def callNamed (functions : Named (Computation Json)) (name : String) : Computation Json :=
  match functions name with
  | some f => f
  | none => fun _ _ => .error ("unknown expression '" ++ name ++ "'")

/-- The value of an expression. -/
def eval (functions : Named (Computation Json)) : Expression → Computation Json
  | .value v, _, _ => .ok v
  | .path p, context, event =>
    match Lookup.path? context event p with
    | some v => .ok v
    | none => .error ("path '" ++ p ++ "' must start with 'ctx' or 'event'")
  | .named name, context, event => callNamed functions name context event
  | .function f, context, event => f context event

end Expression

/-- A value computed whole or field by field; the fields are in increasing order of their
keys. -/
inductive Mapping where
  | whole (expression : Expression)
  | fields (entries : List (String × Expression))

namespace Mapping

/-- Mappings are equal when they are written equally. -/
def beq : Mapping → Mapping → Bool
  | .whole a, .whole b => a == b
  | .fields a, .fields b => a == b
  | _, _ => false

instance : BEq Mapping := ⟨beq⟩

/-- Whether the mapping computes its value as a whole. -/
def isWhole : Mapping → Bool
  | .whole _ => true
  | .fields _ => false

/-- The values of the entries, all in one context. -/
def evalEntries (functions : Named (Computation Json))
    (entries : List (String × Expression)) : Computation (List (String × Json)) :=
  fun context event => entries.mapM (fun (key, e) => do
    let v ← e.eval functions context event
    .ok (key, v))

/-- The fields `done` with each new field at the place of its key or else at the end. -/
def overlay (done new : List (String × Json)) : List (String × Json) :=
  new.foldl (fun acc f => Association.insert f.1 f.2 acc) done

/-- The context after the mapping: its fields are laid over the context, which must be an
object or null. -/
def apply (functions : Named (Computation Json)) : Mapping → Computation Json
  | .whole e, context, event => e.eval functions context event
  | .fields entries, context, event => do
    let before ← match context with
      | .obj own => .ok own
      | .null => .ok []
      | other => .error ("cannot assign fields on non-object context " ++ other.compact)
    let new ← evalEntries functions entries context event
    .ok (.obj (overlay before new))

/-- The value of the mapping by itself: its fields make a fresh object. -/
def evaluate (functions : Named (Computation Json)) : Mapping → Computation Json
  | .whole e, context, event => e.eval functions context event
  | .fields entries, context, event => do
    let new ← evalEntries functions entries context event
    .ok (.obj new)

end Mapping

/-- The event that an action sends or raises. -/
inductive EventExpression where
  | fixed (event : Event)
  | named (name : String)
  | function (f : Computation Json)

namespace EventExpression

/-- Event expressions are equal when they are written equally. -/
def beq : EventExpression → EventExpression → Bool
  | .fixed a, .fixed b => a == b
  | .named a, .named b => a == b
  | _, _ => false

instance : BEq EventExpression := ⟨beq⟩

/-- The kind of a value that is no event, in words. -/
def kindText : Json → String
  | .null => "null"
  | .bool b => "boolean `" ++ Json.scalarText (.bool b) ++ "`"
  | .int n => "integer `" ++ Json.scalarText (.int n) ++ "`"
  | .float x => "floating point `" ++ Json.scalarText (.float x) ++ "`"
  | .str s => "string " ++ Json.scalarText (.str s)
  | .arr _ => "sequence"
  | .obj _ => "map"

/-- Why a value is no event, in words. -/
def refusalText : Event.Refusal → String
  | .nameNotString => "event 'type' must be a string"
  | .nameMissing => "missing field `type`"
  | .wrongKind value =>
    "invalid type: " ++ kindText value ++
      ", expected an event name or an object with a 'type' field"

/-- The event that a computed value denotes. -/
def produced (value : Json) : Except String Event :=
  match Event.ofJson value with
  | .ok event => .ok event
  | .error refusal =>
    .error ("expression did not produce an event: " ++ refusalText refusal)

/-- The event of an event expression. -/
def eval (functions : Named (Computation Json)) : EventExpression → Computation Event
  | .fixed e, _, _ => .ok e
  | .named name, context, event => do
    produced (← Expression.callNamed functions name context event)
  | .function f, context, event => do produced (← f context event)

end EventExpression

/-- How long a sent event is held back: milliseconds, or the name of a delay that the
caller supplies. -/
inductive Delay where
  | millis (n : Nat)
  | named (name : String)
  deriving DecidableEq, Repr

namespace Delay

/-- The delay that a key spells: digits are milliseconds, anything else is a name. -/
def ofKey (key : String) : Delay :=
  match Decimal.natural? (1 <<< 64) key with
  | some n => .millis n
  | none => .named key

/-- The delay as it is displayed. -/
def text : Delay → String
  | .millis n => toString n
  | .named name => name

end Delay

end Statechart
