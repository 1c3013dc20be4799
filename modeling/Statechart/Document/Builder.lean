import Statechart.Document.Basic

/-!
# Building machines

Machine documents put together piece by piece.  Each function adds one declaration at the
end of those of its kind.
-/

namespace Statechart.Document

/-- The transition to a target. -/
def Transition.to (target : String) : Transition :=
  { targets := [target] }

/-- The entries with one more candidate for `key`: among those of the key or else in a new
entry at the end. -/
def addCandidate (key : String) (t : Transition) :
    List (String × List Transition) → List (String × List Transition)
  | [] => [(key, [t])]
  | (k, ts) :: rest =>
    if k = key then (k, ts ++ [t]) :: rest else (k, ts) :: addCandidate key t rest

namespace State

/-- The state that declares nothing. -/
def empty : State :=
  .node {} []

/-- The state with its declaration changed. -/
def declare (s : State) (change : Declaration → Declaration) : State :=
  .node (change s.own) s.children

/-- The state of the given type. -/
def withType (s : State) (type : StateType) : State :=
  s.declare (fun d => { d with type := some type })

/-- The state with the given id. -/
def withId (s : State) (id : String) : State :=
  s.declare (fun d => { d with id := some id })

/-- The state with the given initial child. -/
def withInitial (s : State) (key : String) : State :=
  s.declare (fun d => { d with initial := some key })

/-- The state with one more child. -/
def withChild (s : State) (key : String) (child : State) : State :=
  .node s.own (s.children ++ [(key, child)])

/-- The state with one more candidate for an event. -/
def withOn (s : State) (event : String) (t : Transition) : State :=
  s.declare (fun d => { d with on := addCandidate event t d.on })

/-- The state with one more eventless transition. -/
def withAlways (s : State) (t : Transition) : State :=
  s.declare (fun d => { d with always := d.always ++ [t] })

/-- The state with one more delayed transition. -/
def withAfter (s : State) (millis : Nat) (t : Transition) : State :=
  s.declare (fun d => { d with after := d.after ++ [(toString millis, [t])] })

/-- The state with one more entry action. -/
def withEntry (s : State) (a : Action) : State :=
  s.declare (fun d => { d with entry := d.entry ++ [a] })

/-- The state with one more exit action. -/
def withExit (s : State) (a : Action) : State :=
  s.declare (fun d => { d with exit := d.exit ++ [a] })

/-- The state with one more invocation. -/
def withInvocation (s : State) (i : Invocation) : State :=
  s.declare (fun d => { d with invoke := d.invoke ++ [i] })

/-- The state with one more transition on its completion. -/
def withOnDone (s : State) (t : Transition) : State :=
  s.declare (fun d => { d with onDone := d.onDone ++ [t] })

end State

end Statechart.Document
