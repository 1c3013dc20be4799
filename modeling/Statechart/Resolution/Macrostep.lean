import Statechart.Fault
import Statechart.Resolution.Microstep

/-!
# Macrosteps

The reaction of a machine to one event: a first microstep, then eventless transitions as
long as some are enabled, then the next raised event, until nothing is left or the machine
is done.  The number of microsteps is bounded.
-/

namespace Statechart.Progress

/-- The transitions that `event` takes. -/
def enabled (chart : Chart) (imps : Implementations) (p : Progress) (event : Event)
    (eventless : Bool) : List Transition :=
  chart.select imps p.configuration p.history p.collected.context event eventless

/-- What the next microstep takes: its transitions, its trigger and the events that stay in
the queue. -/
structure Upcoming where
  transitions : List Transition
  trigger : Event
  queue : List Event

/-- The next microstep under the current event: eventless transitions come first, then the
first event of the queue that takes a transition. -/
def upcoming (chart : Chart) (imps : Implementations) (p : Progress) (current : Event) :
    List Event → Option Upcoming
  | [] =>
    match p.enabled chart imps current true with
    | [] => none
    | ts => some ⟨ts, current, []⟩
  | event :: rest =>
    match p.enabled chart imps current true with
    | [] =>
      match p.enabled chart imps event false with
      | [] => upcoming chart imps p event rest
      | ts => some ⟨ts, event, rest⟩
    | ts => some ⟨ts, current, event :: rest⟩

/-- The progress after all further microsteps, of which there may be `budget`; `limit` is
the bound that the fault names. -/
def settle (chart : Chart) (imps : Implementations) (limit : Nat) :
    Nat → Event → Progress → Except Fault Progress
  | budget, current, p =>
    if p.done then .ok p
    else
      match p.upcoming chart imps current p.queue with
      | none => .ok { p with queue := [] }
      | some next =>
        match budget with
        | 0 => .error (.microstepLimit limit next.trigger.name)
        | budget + 1 =>
          settle chart imps limit budget next.trigger
            (microstep chart imps next.transitions next.trigger { p with queue := next.queue })

/-- The progress after a microstep under the given transitions and all that follow. -/
def react (chart : Chart) (imps : Implementations) (limit : Nat) (ts : List Transition)
    (event : Event) (p : Progress) : Except Fault Progress :=
  match limit with
  | 0 => .error (.microstepLimit limit event.name)
  | budget + 1 => settle chart imps limit budget event (microstep chart imps ts event p)

/-- The progress after the default configuration is entered and settled. -/
def start (chart : Chart) (imps : Implementations) (limit : Nat) (event : Event)
    (context : Json) : Except Fault Progress :=
  match limit with
  | 0 => .error (.microstepLimit limit event.name)
  | budget + 1 =>
    settle chart imps limit budget event
      (enter chart imps event { configuration := [], history := [], collected := { context } }
        (chart.addDefaults Chart.root []))

end Statechart.Progress
