import Statechart.Session.Basic

/-!
# Services and mailboxes of a session

How an interpreter receives events, and how its services are started, reached and stopped.
An event of a service carries the generation of the service; it is taken only while that
generation is live.
-/

namespace Statechart.Session

/-- The session with a drain of the mailbox begun, unless one is under way. -/
def drain (s : Session) (n : Nat) : Session :=
  match (s.actor? n).bind (fun a => a.mailbox.claim?) with
  | none => s
  | some m => (s.modify n (fun a => { a with mailbox := m })).plan [.pump n]

/-- The session with an envelope in the mailbox of an interpreter. -/
def queue (s : Session) (n : Nat) (e : Envelope) : Session :=
  s.modify n (fun a => { a with mailbox := a.mailbox.push e })

/-- The session with an envelope for a running interpreter; any other drops it. -/
def enqueue (s : Session) (n : Nat) (e : Envelope) : Session :=
  if s.isRunning n then (s.queue n e).drain n else s

/-- The session with an envelope for an interpreter that may have gone. -/
def post (s : Session) (n : Nat) (e : Envelope) : Session :=
  if s.isPresent n then s.enqueue n e else s

/-- The session with an event from outside for an interpreter.  Before the start it waits,
if events are deferred, or is a misuse; after the stop it always is. -/
def send (s : Session) (n : Nat) (event : Event) : Session :=
  match s.actor? n with
  | none => s
  | some a =>
    match a.status with
    | .running => s.enqueue n (.external event)
    | .notStarted =>
      if a.settings.deferEvents then s.queue n (.external event)
      else s.diagnose (.notStarted event.name)
    | .stopped => s.diagnose (.sentAfterStop event.name)

/-- The session with an interpreter started: the boot marker comes ahead of all deferred
events. -/
def start (s : Session) (n : Nat) : Session :=
  if s.status n ≠ .notStarted then s.diagnose .alreadyStarted
  else
    (s.modify n (fun a => { a with
      mailbox := a.mailbox.pushFront ⟨.init, .start⟩
      status := .running })).drain n

/-- The session with an event delivered to a service.  Tasks take no events, and callback
services only while their gate is open. -/
def deliver (s : Session) (service : Service) (event : Event) : Session :=
  match service.backing with
  | .machine c => s.send c event
  | .task _ => s
  | .callback k =>
    match s.callbacks[k]? with
    | none => s
    | some c =>
      match c.script.receive, c.disposed with
      | some reactions, false =>
        (s.observe (.called c.src c.id (.received event))).plan
          (((reactions.lookup event.name).getD []).map (Work.operate k))
      | _, _ => s

/-- The session with a service stopped.  The gate of a callback service is closed before
its disposer runs, and the disposer runs once. -/
def stopService (s : Session) (service : Service) : Session :=
  match service.backing with
  | .machine c => s.plan [.stop c]
  | .task j => { s with jobs := s.jobs.modify j (fun job => { job with isOpen := false }) }
  | .callback k =>
    match s.callbacks[k]? with
    | none => s
    | some c =>
      let s := s.modifyCallback k (fun c => { c with disposed := true, disposer := none })
      match c.disposer with
      | none => s
      | some operations =>
        (s.observe (.called c.src c.id .disposed)).plan (operations.map (Work.operate k))

/-- The session with an operation of a callback service done.  What is sent through a closed
gate is dropped. -/
def operate (s : Session) (k : Nat) (operation : Operation) : Session :=
  match s.callbacks[k]? with
  | none => s
  | some c =>
    match operation with
    | .send event =>
      if c.disposed then s.observe (.called c.src c.id (.sent event.name false))
      else s.plan [.post c.owner (c.envelope event), .noteSent k event.name]
    | .fail data =>
      if c.disposed then s.observe (.called c.src c.id (.failed false true))
      else
        s.plan [.post c.owner (c.envelope (.invocationFailed c.id data)), .noteFailed k]
    | .every millis event times =>
      if times = 0 ∨ !s.hasTimers then s
      else { s with clock := s.clock.schedule (millis * 1000) (.repeated k millis event times) }

/-- The session with a service registered; the one that it displaces is stopped. -/
def register (s : Session) (n : Nat) (service : Service) : Session :=
  let displaced := (s.actor? n).bind (fun a => a.services.lookup service.id)
  (s.modify n (fun a => { a with
    services := Association.insertSorted service.id service a.services })).plan
      (displaced.toList.map Work.stopService)

/-- The session without the live service of an id, if it has the given generation. -/
def removeGeneration (s : Session) (n : Nat) (id : String) (generation : Nat) : Session :=
  s.modify n (fun a =>
    if a.isLive id generation then { a with services := Association.erase id a.services }
    else a)

/-- The session with a failure to start an invocation reported to its interpreter. -/
def startFailed (s : Session) (n : Nat) (id : String) (data : Json) : Session :=
  s.queue n (.external (.invocationFailed id data))

/-- The context of an invoked machine: the data of the invocation, laid over the context of
the machine if both are objects. -/
def childContext (context : Json) : Option Json → Json
  | none => context
  | some (.obj fields) =>
    match context with
    | .obj own => .obj (Mapping.overlay own fields)
    | _ => .obj fields
  | some data => data

/-- The interpreter of an invoked machine, which takes the settings of the one that invokes
it. -/
def childActor (link : Link) (settings : Settings) (machine : Machine) (data : Option Json) :
    Actor where
  link := some link
  machine := (machine.withContext (childContext machine.context data)).withLimit settings.limit
  settings := settings

/-- Why no task can be started. -/
def noTasksReason : String :=
  "there is no reactor running, must be called from the context of a Tokio 1.x runtime"

/-- The session with a machine invoked. -/
def startMachine (s : Session) (n : Nat) (a : Actor) (service : Backing → Service)
    (machine : Machine) (data : Option Json) : Session :=
  let child := s.actors.length
  let own := service (.machine child)
  let link : Link := ⟨n, own.id, own.generation⟩
  ({ s with actors := s.actors ++ [childActor link a.settings machine data] }).plan
    [.register n own, .start child, .confirmStart n child own.id own.generation]

/-- The session with a task invoked. -/
def startTask (s : Session) (n : Nat) (service : Backing → Service)
    (ending : Json → Event → Ending) (input : Json) (trigger : Event) : Session :=
  let own := service (.task s.jobs.length)
  if !s.hasTasks then s.startFailed n own.id (reasonData noTasksReason)
  else
    let job : Job :=
      { owner := n, id := own.id, generation := own.generation, ending := ending input trigger }
    ({ s with jobs := s.jobs ++ [job] }.observe (.launched own.src input trigger)).plan
      [.register n own]

/-- The session with a callback service invoked.  Its first operations come before it is
registered. -/
def startCallback (s : Session) (n : Nat) (service : Backing → Service) (script : Script)
    (input : Json) (trigger : Event) : Session :=
  let k := s.callbacks.length
  let own := service (.callback k)
  let callback : Callback :=
    { src := own.src, id := own.id, generation := own.generation, owner := n, script,
      disposer := if script.failure.isSome then none else script.dispose }
  let s := { s with callbacks := s.callbacks ++ [callback] }.observe
    (.called own.src own.id (.started input trigger))
  match script.failure with
  | some data => s.startFailed n own.id data
  | none => s.plan (script.start.map (Work.operate k) ++ [.register n own])

/-- The session with an invocation started. -/
def startService (s : Session) (n : Nat) (invocation : Invocation) (data : Option Json)
    (context : Json) (trigger : Event) : Session :=
  match s.catalog.lookup invocation.src, s.actor? n with
  | some source, some a =>
    let generation := a.generation + 1
    let s := s.modify n (fun a => { a with generation })
    let service := Service.mk invocation.id invocation.src generation invocation.forward
    let input := data.getD context
    match source with
    | .machine m => s.startMachine n a service m data
    | .task ending => s.startTask n service ending input trigger
    | .callback script => s.startCallback n service script input trigger
  | _, _ => s.diagnose (.unknownService invocation.id invocation.src)

end Statechart.Session
