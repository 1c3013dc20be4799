import Statechart.Action.Resolved
import Statechart.Guard.Evaluation

/-!
# Collection of actions

Actions are resolved one after the other in an evolving context: an assignment replaces the
context, a raised event joins the raised events, and any other action is resolved and kept.
An action whose expressions fail is kept as unresolved and raises an error event.
-/

namespace Statechart

/-- What the caller supplies under names: effects of actions, predicates, functions and
delays in microseconds. -/
structure Implementations where
  actions : Named Effect := fun _ => none
  guards : Named Guard.Predicate := fun _ => none
  functions : Named (Computation Json) := fun _ => none
  delays : Named (Computation Nat) := fun _ => none

instance : Inhabited Implementations := ⟨{}⟩

/-- The state of a collection. -/
structure Collection where
  context : Json
  raised : List Event := []
  actions : List ResolvedAction := []

namespace Collection

/-- The microseconds of a delay. -/
def delayOf (imps : Implementations) (delay : Option Delay) : Computation (Option Nat) :=
  fun context event =>
    match delay with
    | none => .ok none
    | some (.millis n) => .ok (some (n * 1000))
    | some (.named name) =>
      match imps.delays name with
      | some f => (f context event).map some
      | none => .error ("unknown delay '" ++ name ++ "'")

/-- The evaluated send. -/
def sendOf (imps : Implementations) (event : EventExpression) (delay : Option Delay)
    (target id : Option String) : Computation Send :=
  fun context trigger => do
    let event ← event.eval imps.functions context trigger
    let delay ← delayOf imps delay context trigger
    .ok { event, destination := Destination.ofTarget target, delay, id }

/-- The start of the invocation `id`, with its data evaluated. -/
def startOf (chart : Chart) (imps : Implementations) (id : String) : Computation Duty :=
  fun context trigger =>
    match chart.invocation? id with
    | none => .ok (.unresolved ("unknown invocation '" ++ id ++ "'"))
    | some invocation =>
      match invocation.data with
      | none => .ok (.start invocation none)
      | some mapping =>
        (mapping.evaluate imps.functions context trigger).map
          (fun data => .start invocation (some data))

/-- The duty of an action by name. -/
def namedDuty (imps : Implementations) (name : String) : Duty :=
  match imps.actions name with
  | some effect => .execute effect
  | none => .unresolved ("no implementation for action '" ++ name ++ "'")

/-- What an action comes to in a context: a new context, a raised event or a duty. -/
inductive Outcome where
  | context (next : Json)
  | raised (event : Event)
  | duty (duty : Duty)

/-- The outcome of an action. -/
def outcome (chart : Chart) (imps : Implementations) (action : Action) :
    Computation Outcome :=
  fun context trigger =>
    match action with
    | .named name => .ok (.duty (namedDuty imps name))
    | .inline _ effect => .ok (.duty (.execute effect))
    | .assign mapping => (mapping.apply imps.functions context trigger).map .context
    | .raise event => (event.eval imps.functions context trigger).map .raised
    | .send event delay target id =>
      (sendOf imps event delay target id context trigger).map (fun s => .duty (.send s))
    | .sendParent event =>
      (sendOf imps event none (some Destination.parentTarget) none context trigger).map
        (fun s => .duty (.send s))
    | .log expression label => .ok (.duty (.log expression label))
    | .cancel sendId => .ok (.duty (.cancel sendId))
    | .start id => (startOf chart imps id context trigger).map .duty
    | .stop id => .ok (.duty (.stop id))

/-- The event that tells of a failed action. -/
def failure (type reason : String) : Event :=
  ⟨Event.executionErrorName, .obj [("action", .str type), ("reason", .str reason)]⟩

/-- The collection after one more action. -/
def expand (chart : Chart) (imps : Implementations) (trigger : Event) (c : Collection)
    (action : Action) : Collection :=
  match outcome chart imps action c.context trigger with
  | .ok (.context next) => { c with context := next }
  | .ok (.raised event) => { c with raised := c.raised ++ [event] }
  | .ok (.duty duty) => { c with actions := c.actions ++ [⟨action.type, duty, trigger⟩] }
  | .error reason =>
    { c with
      raised := c.raised ++ [failure action.type reason]
      actions := c.actions ++ [⟨action.type, .unresolved reason, trigger⟩] }

/-- The collection after further actions, in order. -/
def collect (chart : Chart) (imps : Implementations) (trigger : Event) (c : Collection)
    (actions : List Action) : Collection :=
  actions.foldl (expand chart imps trigger) c

end Collection

end Statechart
