import Statechart.Machine

/-!
# Loops

The loop of a machine is what an interpreter comes to that has nothing else to do: it begins
with the first snapshot and takes the events of one queue, in their order.  The events that
a snapshot sends join the queue, in the order of its actions.  The loop ends with a snapshot
that is done or with a fault.
-/

namespace Statechart

/-- The event that an action sends. -/
def ResolvedAction.sent? (action : ResolvedAction) : Option Event :=
  match action.duty with
  | .send send => some send.event
  | _ => none

/-- The events that a snapshot sends, in the order of its actions. -/
def Snapshot.sent (s : Snapshot) : List Event :=
  s.actions.filterMap ResolvedAction.sent?

/-- A loop: the snapshots so far, the events that wait, and the fault if there was one. -/
structure Loop where
  shown : List Snapshot := []
  queue : List Event := []
  fault : Option Fault := none

namespace Loop

/-- Whether a loop has ended. -/
def isOver (l : Loop) : Bool :=
  l.fault.isSome || l.shown.getLast?.any Snapshot.done

/-- The loop with one more event at the end of the queue. -/
def push (l : Loop) (event : Event) : Loop :=
  { l with queue := l.queue ++ [event] }

/-- The loop after an answer of the machine: the events that a snapshot sends join the queue,
and a fault ends the loop. -/
def absorb (l : Loop) : Except Fault Snapshot → Loop
  | .ok s => { l with shown := l.shown ++ [s], queue := l.queue ++ s.sent }
  | .error fault => { l with fault := some fault }

/-- The loop one answer further, unless it has ended or has nothing to take: the first answer
is that of the start, and any other one that of the last snapshot to the first event. -/
def next? (m : Machine) (l : Loop) : Option Loop :=
  if l.isOver then none
  else
    match l.shown.getLast?, l.queue with
    | none, _ => some (l.absorb m.initial)
    | some s, event :: rest => some ({ l with queue := rest }.absorb (m.transition s event))
    | some _, [] => none

end Loop

namespace Machine

/-- Whether a loop comes to rest at another one. -/
inductive Drains (m : Machine) : Loop → Loop → Prop where
  | rest {l} (h : l.next? m = none) : Drains m l l
  | step {l l₁ l'} (h : l.next? m = some l₁) (hrest : Drains m l₁ l') : Drains m l l'

/-- Whether a loop that takes events one by one, each when it has come to rest, gets to another
one; the events that come when it has ended are left over. -/
inductive Takes (m : Machine) : Loop → List Event → Loop → List Event → Prop where
  | all {l} : Takes m l [] l []
  | ended {l events} (h : l.isOver = true) : Takes m l events l events
  | step {l l₁ l' event events left} (h : l.isOver = false) (hdrains : m.Drains (l.push event) l₁)
      (hrest : Takes m l₁ events l' left) : Takes m l (event :: events) l' left

end Machine

end Statechart
