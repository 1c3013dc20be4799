import Statechart.Event

/-!
# Guards

A guard is the name of a predicate that the caller supplies, or an expression over the
context and the triggering event: truth of a field, comparison of a field with a literal,
and their Boolean combinations.
-/

namespace Statechart

namespace Guard

/-- Where a field is looked up. -/
inductive Scope where
  | context
  | event
  deriving DecidableEq, Repr

/-- A field of the context or of the event. -/
structure Field where
  scope : Scope
  path : String
  deriving DecidableEq, Repr

/-- A comparison. -/
inductive Comparison where
  | eq
  | ne
  | gt
  | ge
  | lt
  | le
  deriving DecidableEq, Repr

/-- What a field is compared with. -/
inductive Literal where
  | null
  | bool (b : Bool)
  | str (s : String)
  | number (x : Float)
  deriving Repr

/-- A guard expression. -/
inductive Formula where
  | truthy (field : Field)
  | compare (field : Field) (comparison : Comparison) (literal : Literal)
  | and (left right : Formula)
  | or (left right : Formula)
  | not (inner : Formula)
  deriving Repr

/-- Why a text is no guard. -/
inductive Refusal where
  | empty
  | leftOver (offset : Nat) (rest : String)
  | unclosed
  | noScope
  | emptyField
  | unterminated
  | badNumber (text : String)
  deriving DecidableEq, Repr

/-- The reason in words. -/
def Refusal.reason : Refusal → String
  | .empty => "empty guard expression"
  | .leftOver offset rest => "unexpected input at offset " ++ toString offset ++ ": '" ++ rest ++ "'"
  | .unclosed => "expected ')'"
  | .noScope => "field must start with 'ctx.' or 'event.'"
  | .emptyField => "empty field name"
  | .unterminated => "unterminated string"
  | .badNumber text => "invalid number: '" ++ text ++ "'"

end Guard

/-- A guard of a transition. -/
inductive Guard where
  | formula (f : Guard.Formula)
  | named (name : String)
  deriving Repr

end Statechart
