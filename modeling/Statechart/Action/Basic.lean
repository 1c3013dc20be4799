import Statechart.Expression.Basic

/-!
# Actions

What a definition asks for on a transition, on entry or on exit: an implementation that
the caller supplies by name or in place, or one of the built-in actions.
-/

namespace Statechart

/-- What an implementation of an action asks of the interpreter at the root. -/
inductive Request where
  | send (event : Event)
  | unsubscribe (listener : String)
  | stop

/-- The implementation of an action: the requests it makes. -/
abbrev Effect := Json → Event → List Request

/-- An action as a definition declares it. -/
inductive Action where
  | named (name : String)
  | inline (name : String) (effect : Effect)
  | send (event : EventExpression) (delay : Option Delay) (target id : Option String)
  | raise (event : EventExpression)
  | log (expression : Option Expression) (label : Option String)
  | assign (mapping : Mapping)
  | sendParent (event : EventExpression)
  | cancel (sendId : String)
  | start (id : String)
  | stop (id : String)

namespace Action

/-- Actions are equal when they are written equally; those in place are equal to none. -/
def beq : Action → Action → Bool
  | .named a, .named b => a == b
  | .send e d t i, .send e' d' t' i' => e == e' && d == d' && t == t' && i == i'
  | .raise a, .raise b => a == b
  | .log e l, .log e' l' => e == e' && l == l'
  | .assign a, .assign b => a == b
  | .sendParent a, .sendParent b => a == b
  | .cancel a, .cancel b => a == b
  | .start a, .start b => a == b
  | .stop a, .stop b => a == b
  | _, _ => false

instance : BEq Action := ⟨beq⟩

/-- The type that the resolved action carries. -/
def type : Action → String
  | .named name => name
  | .inline name _ => name
  | .send .. => "harel.send"
  | .sendParent _ => "harel.send"
  | .raise _ => "harel.raise"
  | .log .. => "harel.log"
  | .assign _ => "harel.assign"
  | .cancel _ => "harel.cancel"
  | .start _ => "harel.start"
  | .stop _ => "harel.stop"

end Action

end Statechart
