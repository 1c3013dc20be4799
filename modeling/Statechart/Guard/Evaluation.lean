import Statechart.Guard.Basic
import Statechart.Lookup

/-!
# Truth of guards

`Formula.holds` evaluates a formula in a context and an event, `Guard.passes` a guard with
the predicates that the caller supplies.  A predicate that is unknown or fails counts as
false.
-/

namespace Statechart.Guard

/-- The value of a field. -/
def Field.value (field : Field) (context : Json) (event : Event) : Json :=
  match field.scope with
  | .context => Lookup.field context field.path
  | .event => Lookup.eventField event field.path

/-- Whether a value counts as true: false, null, zero and what is empty do not. -/
def truthy : Json → Bool
  | .null => false
  | .bool b => b
  | .int n => n != 0
  | .float x => x != 0
  | .str s => s != ""
  | .arr items => !items.isEmpty
  | .obj fields => !fields.isEmpty

/-- Numbers are equal when they differ by less than the distance from one to the next
floating-point number. -/
def tolerance : Float := 2.220446049250313e-16

/-- Whether a value equals a literal. -/
def Literal.equals (literal : Literal) (value : Json) : Bool :=
  match literal, value with
  | .number x, value =>
    match value.number? with
    | some y => (y - x).abs < tolerance
    | none => false
  | .null, .null => true
  | .bool a, .bool b => a == b
  | .str a, .str b => a == b
  | _, _ => false

/-- Whether a numeric value stands in the order relation `r` to a numeric literal. -/
def Literal.related (r : Float → Float → Bool) (literal : Literal) (value : Json) : Bool :=
  match literal, value.number? with
  | .number x, some y => r y x
  | _, _ => false

/-- Whether a value compares with a literal as stated. -/
def Comparison.holds (comparison : Comparison) (value : Json) (literal : Literal) : Bool :=
  match comparison with
  | .eq => literal.equals value
  | .ne => !literal.equals value
  | .gt => literal.related (fun a b => a > b) value
  | .ge => literal.related (fun a b => a >= b) value
  | .lt => literal.related (fun a b => a < b) value
  | .le => literal.related (fun a b => a <= b) value

/-- The truth of a formula. -/
def Formula.holds (context : Json) (event : Event) : Formula → Bool
  | .truthy field => Guard.truthy (field.value context event)
  | .compare field comparison literal => comparison.holds (field.value context event) literal
  | .and left right => left.holds context event && right.holds context event
  | .or left right => left.holds context event || right.holds context event
  | .not inner => !inner.holds context event

/-- A predicate that the caller supplies; it may fail with a reason. -/
abbrev Predicate := Json → Event → Except String Bool

/-- Whether a guard passes, with the named predicates `named`. -/
def passes (named : String → Option Predicate) (context : Json) (event : Event) :
    Guard → Bool
  | .formula f => f.holds context event
  | .named name =>
    match named name with
    | some predicate => (predicate context event).toOption.getD false
    | none => false

end Statechart.Guard
