import Statechart.Clock
import Statechart.Diagnostic
import Statechart.Listeners
import Statechart.Machine
import Statechart.Settings.Basic

/-!
# Sessions

A session is an interpreter at work: the root interpreter and those that it invokes, the
catalog of services, a clock, and an agenda of what is to be done next.  Interpreters are
known by their places in the list of all interpreters; the root has place 0, and an invoked
one a greater place than the one that invoked it.
-/

namespace Statechart

/-- The life of an interpreter; a stopped one stays stopped. -/
inductive Status where
  | notStarted
  | running
  | stopped
  deriving DecidableEq, Repr

/-- What a callback service does. -/
inductive Operation where
  | send (event : Event)
  | fail (data : Json)
  /-- Sends the event a number of times, each time after a delay in milliseconds. -/
  | every (millis : Nat) (event : Event) (times : Nat)

/-- How a callback service behaves. -/
structure Script where
  /-- The data of the failure to start, if it fails. -/
  failure : Option Json := none
  start : List Operation := []
  /-- The reactions to events by their names, if it takes events. -/
  receive : Option (List (String × List Operation)) := none
  dispose : Option (List Operation) := none

/-- How a one-shot task ends. -/
inductive Ending where
  | succeeds (data : Json)
  | fails (data : Json)
  | panics
  | never

/-- How an invocation is run. -/
inductive Source where
  | machine (machine : Machine)
  | task (ending : Json → Event → Ending)
  | callback (script : Script)

namespace Source

/-- The name of the kind of a source. -/
def kind : Source → String
  | .machine _ => "machine"
  | .task _ => "task"
  | .callback _ => "callback"

end Source

/-- What a live service consists of. -/
inductive Backing where
  | machine (actor : Nat)
  | task (job : Nat)
  | callback (number : Nat)
  deriving DecidableEq, Repr

/-- A live invocation. -/
structure Service where
  id : String
  src : String
  generation : Nat
  forward : Bool
  backing : Backing
  deriving DecidableEq, Repr

/-- A callback service that was started, with the gate to the interpreter that owns it. -/
structure Callback where
  src : String
  id : String
  generation : Nat
  owner : Nat
  script : Script
  /-- Whether the gate is closed. -/
  disposed : Bool := false
  /-- What is to be done on disposal; taken when it is done. -/
  disposer : Option (List Operation) := none

/-- A task that was started. -/
structure Job where
  owner : Nat
  id : String
  generation : Nat
  ending : Ending
  /-- Whether the result is still to be delivered. -/
  isOpen : Bool := true

/-- The place of an invoked interpreter in the one that invoked it. -/
structure Link where
  actor : Nat
  invocation : String
  generation : Nat

/-- A delayed send that waits for its timer. -/
structure DelayedSend where
  generation : Nat
  timer : Nat
  destination : Destination

/-- An interpreter. -/
structure Actor where
  link : Option Link
  machine : Machine
  settings : Settings
  status : Status := .notStarted
  state : Option Snapshot := none
  /-- What to start from instead of the default configuration. -/
  resume : Option Persisted := none
  /-- Why the start failed. -/
  startFault : Option Fault := none
  mailbox : Mailbox := {}
  /-- The live services, in increasing order of their ids. -/
  services : List (String × Service) := []
  /-- The last generation of services. -/
  generation : Nat := 0
  timers : List (SendId × DelayedSend) := []
  /-- The last generation of delayed sends. -/
  timerGeneration : Nat := 0
  listeners : Listeners String := {}

/-- What a timer does. -/
inductive Alarm where
  | post (actor : Nat) (envelope : Envelope)
  | repeated (callback : Nat) (millis : Nat) (event : Event) (times : Nat)

/-- What a callback service is seen to do. -/
inductive Call where
  | started (input : Json) (event : Event)
  | received (event : Event)
  | disposed
  | sent (event : String) (accepted : Bool)
  | failed (accepted disposed : Bool)

/-- What is seen of a session from outside. -/
inductive Observation where
  | published (listener : String) (snapshot : Snapshot)
  | diagnosed (diagnostic : Diagnostic)
  | logged (label : Option String) (value : Json)
  | completed (event : Event)
  | executed (name : String) (context : Json) (event : Event)
  | called (src id : String) (call : Call)
  | launched (src : String) (input : Json) (event : Event)

/-- What is to be done. -/
inductive Work where
  /-- Starts an interpreter. -/
  | start (actor : Nat)
  /-- Sends an event to an interpreter from outside. -/
  | send (actor : Nat) (event : Event)
  /-- Puts an envelope into the mailbox of an interpreter, if that is still there. -/
  | post (actor : Nat) (envelope : Envelope)
  /-- Takes the next envelope from a claimed mailbox. -/
  | pump (actor : Nat)
  /-- Handles an envelope. -/
  | handle (actor : Nat) (envelope : Envelope)
  /-- Forwards an event and then takes it. -/
  | macrostep (actor : Nat) (event : Event) (origin : Origin)
  /-- Takes an event in a snapshot. -/
  | react (actor : Nat) (snapshot : Snapshot) (event : Event)
  /-- Carries out an action of a snapshot. -/
  | perform (actor : Nat) (snapshot : Snapshot) (action : ResolvedAction)
  /-- Starts the invocation of an action, which is followed by the actions `later`. -/
  | invoke (actor : Nat) (snapshot : Snapshot) (action : ResolvedAction)
      (later : List ResolvedAction)
  /-- Shows a snapshot to the listeners. -/
  | publish (actor : Nat) (snapshot : Snapshot)
  /-- Stops an interpreter. -/
  | stop (actor : Nat)
  /-- Empties a stopped interpreter. -/
  | release (actor : Nat)
  /-- Notes why the start of an interpreter failed. -/
  | recordFault (actor : Nat) (fault : Fault)
  /-- Reports an invoked interpreter that failed to start. -/
  | confirmStart (actor child : Nat) (id : String) (generation : Nat)
  /-- Registers a service. -/
  | register (actor : Nat) (service : Service)
  /-- Delivers an event to a service. -/
  | deliver (service : Service) (event : Event)
  /-- Stops a service. -/
  | stopService (service : Service)
  /-- Does an operation of a callback service. -/
  | operate (callback : Nat) (operation : Operation)
  /-- Notes that a callback service sent an event. -/
  | noteSent (callback : Nat) (event : String)
  /-- Notes that a callback service reported a failure. -/
  | noteFailed (callback : Nat)
  /-- Takes off the latest listener of a name. -/
  | unsubscribe (listener : String)
  /-- Moves the clock to a time. -/
  | advance (target : Nat)
  /-- Does what a timer does. -/
  | ring (alarm : Alarm)
  /-- Delivers the results of the tasks. -/
  | settle

/-- A session. -/
structure Session where
  actors : List Actor
  catalog : List (String × Source) := []
  clock : Clock Alarm := {}
  /-- Whether timers can be armed. -/
  hasTimers : Bool := true
  /-- Whether tasks can be started. -/
  hasTasks : Bool := true
  callbacks : List Callback := []
  jobs : List Job := []
  /-- The number of the latest listener of each name at the root. -/
  subscriptions : List (String × Nat) := []
  trace : List Observation := []
  agenda : List Work := []

/-- The envelope of an event that a callback service sends. -/
def Callback.envelope (c : Callback) (event : Event) : Envelope :=
  ⟨event, .service c.id c.generation⟩

/-- The data of a failure with a reason. -/
def reasonData (reason : String) : Json :=
  .obj [("reason", .str reason)]

/-- The envelope of the result of a task; one that never ends has none. -/
def Job.result? (job : Job) : Option Envelope :=
  let origin := Origin.service job.id job.generation
  match job.ending with
  | .succeeds data => some ⟨.invocationDone job.id data, origin⟩
  | .fails data => some ⟨.invocationFailed job.id data, origin⟩
  | .panics => some ⟨.invocationFailed job.id (reasonData "panicked"), origin⟩
  | .never => none

namespace Backing

/-- The interpreter that a service consists of, if it does. -/
def actor? : Backing → Option Nat
  | .machine actor => some actor
  | _ => none

end Backing

namespace Work

/-- The interpreters that cannot go away as long as the work is to be done. -/
def actors : Work → List Nat
  | .start n => [n]
  | .send n _ => [n]
  | .pump n => [n]
  | .handle n _ => [n]
  | .macrostep n _ _ => [n]
  | .react n _ _ => [n]
  | .perform n _ _ => [n]
  | .invoke n _ _ _ => [n]
  | .publish n _ => [n]
  | .stop n => [n]
  | .release n => [n]
  | .recordFault n _ => [n]
  | .confirmStart n c _ _ => [n, c]
  | .register n s => n :: s.backing.actor?.toList
  | .deliver s _ => s.backing.actor?.toList
  | .stopService s => s.backing.actor?.toList
  | _ => []

end Work

namespace Actor

/-- Whether an invoked interpreter is a live service. -/
def holds (a : Actor) (child : Nat) : Bool :=
  a.services.any (fun e => e.2.backing == .machine child)

/-- Whether the live service of an id has the given generation. -/
def isLive (a : Actor) (id : String) (generation : Nat) : Bool :=
  (a.services.lookup id).any (fun s => s.generation == generation)

end Actor

namespace Session

/-- The place of the root interpreter. -/
def root : Nat := 0

/-- The interpreter at a place. -/
def actor? (s : Session) (n : Nat) : Option Actor :=
  s.actors[n]?

/-- The status of an interpreter. -/
def status (s : Session) (n : Nat) : Status :=
  ((s.actor? n).map Actor.status).getD .stopped

/-- Whether an interpreter is running. -/
def isRunning (s : Session) (n : Nat) : Bool :=
  s.status n == .running

/-- The session with an interpreter changed. -/
def modify (s : Session) (n : Nat) (change : Actor → Actor) : Session :=
  { s with actors := s.actors.modify n change }

/-- The session with a callback service changed. -/
def modifyCallback (s : Session) (k : Nat) (change : Callback → Callback) : Session :=
  { s with callbacks := s.callbacks.modify k change }

/-- The session with more work to be done first. -/
def plan (s : Session) (works : List Work) : Session :=
  { s with agenda := works ++ s.agenda }

/-- The session with one more observation. -/
def observe (s : Session) (o : Observation) : Session :=
  { s with trace := s.trace ++ [o] }

/-- The session with one more reported problem. -/
def diagnose (s : Session) (d : Diagnostic) : Session :=
  s.observe (.diagnosed d)

/-- Whether an interpreter is still there: the root is, one that has work to do, and one
that is a live service of an interpreter that is there. -/
def isPresent (s : Session) (n : Nat) : Bool :=
  n == root || s.agenda.any (fun w => w.actors.contains n) ||
    match (s.actor? n).bind Actor.link with
    | none => false
    | some link =>
      if link.actor < n then
        (s.actor? link.actor).any (fun a => a.holds n) && s.isPresent link.actor
      else false
termination_by n

end Session

end Statechart
