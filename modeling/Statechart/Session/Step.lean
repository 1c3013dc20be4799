import Statechart.Session.Service

/-!
# Steps of a session

`Session.step` does the first work of the agenda, which may put further work ahead of the
rest: an event is forwarded and taken, the new snapshot is stored, its actions are carried
out, its invocations started and the snapshot published.  `Session.run` makes steps until
nothing is left to do.
-/

namespace Statechart.Session

/-- The session with a delayed send cancelled. -/
def cancelSend (s : Session) (n : Nat) (id : SendId) : Session :=
  match (s.actor? n).bind (fun a => a.timers.lookup id) with
  | none => s
  | some d =>
    { s.modify n (fun a => { a with timers := Association.erase id a.timers }) with
      clock := s.clock.cancel d.timer }

/-- The session with an event sent right away: to the back of the own queue, to the
interpreter above, or to a live service. -/
def route (s : Session) (n : Nat) (destination : Destination) (event : Event) : Session :=
  match destination with
  | .myself => s.queue n (.external event)
  | .parent =>
    match (s.actor? n).bind Actor.link with
    | some link => s.plan [.post link.actor ⟨event, .service link.invocation link.generation⟩]
    | none => s.diagnose (.unknownTarget Destination.parentTarget event.name)
  | .child id =>
    match (s.actor? n).bind (fun a => a.services.lookup id) with
    | some service => s.plan [.deliver service event]
    | none => s.diagnose (.unknownTarget id event.name)

/-- The session with a delayed send armed; it replaces the one of the same id. -/
def armSend (s : Session) (n : Nat) (send : Send) (delay : Nat) : Session :=
  match s.actor? n with
  | none => s
  | some a =>
    let generation := a.timerGeneration + 1
    let id := (send.id.map SendId.named).getD (.automatic generation)
    let s := s.modify n (fun a => { a with timerGeneration := generation })
    let s := s.cancelSend n id
    if !s.hasTimers then s.diagnose (.timerUnavailable id)
    else
      let delayed : DelayedSend := ⟨generation, s.clock.nextNumber, send.destination⟩
      let s := s.modify n (fun a => { a with timers := (id, delayed) :: a.timers })
      { s with clock := s.clock.schedule delay (.post n ⟨send.event, .timer id generation⟩) }

/-- The session with a send dispatched: held back if it has a delay, or else sent. -/
def dispatch (s : Session) (n : Nat) (send : Send) : Session :=
  match send.delay with
  | some (delay + 1) => s.armSend n send (delay + 1)
  | _ => s.route n send.destination send.event

/-- The session with a log action carried out; one whose expression fails logs nothing. -/
def log (s : Session) (n : Nat) (snapshot : Snapshot) (trigger : Event)
    (expression : Option Expression) (label : Option String) : Session :=
  match expression with
  | none =>
    s.observe (.logged label (.obj [("context", snapshot.context), ("event", trigger.wire)]))
  | some e =>
    match (s.actor? n).bind (fun a => (a.machine.eval e snapshot.context trigger).toOption) with
    | some value => s.observe (.logged label value)
    | none => s

/-- The work that a request of an implementation asks for. -/
def requested : Request → Work
  | .send event => .send root event
  | .unsubscribe listener => .unsubscribe listener
  | .stop => .stop root

/-- The session with an action of a running interpreter carried out. -/
def perform (s : Session) (n : Nat) (snapshot : Snapshot) (action : ResolvedAction) :
    Session :=
  if !s.isRunning n then s
  else
    match action.duty with
    | .start .. => s
    | .execute effect =>
      (s.observe (.executed action.type snapshot.context action.trigger)).plan
        ((effect snapshot.context action.trigger).map requested)
    | .send send => s.dispatch n send
    | .log expression label => s.log n snapshot action.trigger expression label
    | .cancel id => s.cancelSend n (.named id)
    | .stop id =>
      match (s.actor? n).bind (fun a => a.services.lookup id) with
      | none => s
      | some service =>
        (s.modify n (fun a => { a with services := Association.erase id a.services })).plan
          [.stopService service]
    | .unresolved reason => s.diagnose (.unresolvedAction action.type reason)

/-- Whether one of the actions stops the invocation of an id. -/
def stopsLater (id : String) (later : List ResolvedAction) : Bool :=
  later.any (fun a => match a.duty with
    | .stop other => other == id
    | _ => false)

/-- The session with the invocation of an action started, if the interpreter is running, no
later action stops the invocation, and its owner is active. -/
def invoke (s : Session) (n : Nat) (snapshot : Snapshot) (action : ResolvedAction)
    (later : List ResolvedAction) : Session :=
  match action.duty with
  | .start invocation data =>
    if !s.isRunning n || stopsLater invocation.id later ||
        !snapshot.isActive invocation.owner then s
    else s.startService n invocation data snapshot.context action.trigger
  | _ => s

/-- The starts of invocations among the actions of a snapshot. -/
def invocations (n : Nat) (snapshot : Snapshot) : List ResolvedAction → List Work
  | [] => []
  | a :: rest =>
    match a.duty with
    | .start .. => .invoke n snapshot a rest :: invocations n snapshot rest
    | _ => invocations n snapshot rest

/-- The session with a new snapshot stored, its actions to be carried out before its
invocations start, and its publication last. -/
def commit (s : Session) (n : Nat) (snapshot : Snapshot) : Session :=
  (s.modify n (fun a => { a with state := some snapshot })).plan
    (snapshot.actions.map (Work.perform n snapshot) ++
      invocations n snapshot snapshot.actions ++ [.publish n snapshot])

/-- The session with an interpreter that fails for good. -/
def fail (s : Session) (n : Nat) (fault : Fault) (andThen : List Work) : Session :=
  (s.diagnose (.configurationError fault.message)).plan (.stop n :: andThen)

/-- The session with an interpreter booted. -/
def boot (s : Session) (n : Nat) : Session :=
  match s.actor? n with
  | none => s
  | some a =>
    let s := s.modify n (fun a => { a with resume := none })
    let first := match a.resume with
      | some persisted => a.machine.restore persisted
      | none => a.machine.initial
    match first with
    | .ok snapshot => s.commit n snapshot
    | .error fault => s.fail n fault [.recordFault n fault]

/-- The services that an event is forwarded to: those that ask for it, but not the one that
sent it. -/
def forwardTargets (a : Actor) (origin : Origin) : List Service :=
  (a.services.map Prod.snd).filter (fun service =>
    service.forward &&
      match origin with
      | .service id _ => id != service.id
      | _ => true)

/-- The session with an event forwarded and then taken in the current snapshot. -/
def macrostep (s : Session) (n : Nat) (event : Event) (origin : Origin) : Session :=
  match s.actor? n with
  | none => s
  | some a =>
    match a.state with
    | none => s
    | some current =>
      s.plan ((forwardTargets a origin).map (fun service => .deliver service event) ++
        [.react n current event])

/-- The session with an event taken in a snapshot. -/
def react (s : Session) (n : Nat) (snapshot : Snapshot) (event : Event) : Session :=
  match s.actor? n with
  | none => s
  | some a =>
    match a.machine.transition snapshot event with
    | .ok next => s.commit n next
    | .error fault => s.fail n fault []

/-- Whether an event completes the invocation of an id. -/
def completes (event id : String) : Bool :=
  event == Event.doneInvocation ++ id || event == Event.failedInvocation ++ id

/-- The session with an envelope handled, if it still counts: an event of a service counts
while its generation is live, and an event of a timer while the delayed send is pending. -/
def handle (s : Session) (n : Nat) (e : Envelope) : Session :=
  if !s.isRunning n then s
  else
    match e.origin with
    | .start => s.boot n
    | .external => s.plan [.macrostep n e.event e.origin]
    | .service id generation =>
      if (s.actor? n).any (fun a => a.isLive id generation) then
        let s := if completes e.event.name id then s.removeGeneration n id generation else s
        s.plan [.macrostep n e.event e.origin]
      else s
    | .timer id generation =>
      match (s.actor? n).bind (fun a => a.timers.lookup id) with
      | none => s
      | some d =>
        if d.generation = generation then
          let s := s.modify n (fun a => { a with timers := Association.erase id a.timers })
          match d.destination with
          | .myself => s.plan [.macrostep n e.event e.origin]
          | other => s.route n other e.event
        else s

/-- The session with the next envelope taken from a claimed mailbox, or the claim given
up. -/
def pump (s : Session) (n : Nat) : Session :=
  match s.actor? n with
  | none => s
  | some a =>
    match a.mailbox.next? with
    | none => s.modify n (fun a => { a with mailbox := a.mailbox.release })
    | some (e, mailbox) =>
      (s.modify n (fun a => { a with mailbox })).plan [.handle n e, .pump n]

/-- The session with a snapshot of a running interpreter shown to the listeners; one that is
done completes the interpreter. -/
def publish (s : Session) (n : Nat) (snapshot : Snapshot) : Session :=
  match s.actor? n with
  | none => s
  | some a =>
    if a.status ≠ .running then s
    else
      let s := a.listeners.toList.foldl (fun s l => s.observe (.published l snapshot)) s
      if !snapshot.done then s
      else
        let data := snapshot.doneData.getD .null
        let s :=
          if n = root then s.observe (.completed (.stateDone a.machine.chart.id data)) else s
        let report := a.link.toList.map (fun link =>
          Work.post link.actor
            ⟨.invocationDone link.invocation data, .service link.invocation link.generation⟩)
        s.plan (report ++ [.stop n])

/-- The session with an interpreter stopped: its delayed sends are cancelled and its
services stopped, before its queue and its listeners go. -/
def stop (s : Session) (n : Nat) : Session :=
  match s.actor? n with
  | none => s
  | some a =>
    if a.status = .stopped then s
    else
      let s := s.modify n (fun a => { a with status := .stopped })
      let s := a.timers.foldl (fun s t => s.cancelSend n t.1) s
      (s.modify n (fun a => { a with services := [] })).plan
        (a.services.map (fun e => .stopService e.2) ++ [.release n])

/-- The session with the queue and the listeners of an interpreter gone. -/
def release (s : Session) (n : Nat) : Session :=
  s.modify n (fun a => { a with mailbox := a.mailbox.clear, listeners := a.listeners.clear })

/-- The session with a failed start of an invoked interpreter reported. -/
def confirmStart (s : Session) (n child : Nat) (id : String) (generation : Nat) : Session :=
  match (s.actor? child).bind Actor.startFault with
  | none => s
  | some fault =>
    let s := s.modify child (fun a => { a with startFault := none })
    let s := s.removeGeneration n id generation
    s.startFailed n id (reasonData ("core error: " ++ fault.message))

/-- The session without the latest listener of a name at the root. -/
def unsubscribe (s : Session) (listener : String) : Session :=
  match s.subscriptions.lookup listener with
  | none => s
  | some number =>
    { s.modify root (fun a => { a with listeners := a.listeners.unsubscribe number }) with
      subscriptions := Association.erase listener s.subscriptions }

/-- The session with the clock moved to the next timer that is due at a time, or to the
time. -/
def advance (s : Session) (target : Nat) : Session :=
  match s.clock.due? target with
  | none => { s with clock := s.clock.arrive target }
  | some (t, clock) =>
    let s := { s with clock }
    if clock.isCancelled t.number then s.plan [.advance target]
    else s.plan [.ring t.task, .advance target]

/-- The session with the task of a timer done. -/
def ring (s : Session) : Alarm → Session
  | .post n e => s.post n e
  | .repeated k millis event times =>
    s.plan [.operate k (.send event), .operate k (.every millis event (times - 1))]

/-- The session with the first result of a task delivered, in the order in which the tasks
were started. -/
def settle (s : Session) : Session :=
  let found := s.jobs.zipIdx.findSome? (fun (job, j) =>
    if job.isOpen then job.result?.map (fun e => (job.owner, j, e)) else none)
  match found with
  | none => s
  | some (owner, j, e) =>
    ({ s with jobs := s.jobs.modify j (fun job => { job with isOpen := false }) }).plan
      [.post owner e, .settle]

/-- The session with a work done. -/
def carryOut (s : Session) : Work → Session
  | .start n => s.start n
  | .send n event => s.send n event
  | .post n e => s.post n e
  | .pump n => s.pump n
  | .handle n e => s.handle n e
  | .macrostep n event origin => s.macrostep n event origin
  | .react n snapshot event => s.react n snapshot event
  | .perform n snapshot action => s.perform n snapshot action
  | .invoke n snapshot action later => s.invoke n snapshot action later
  | .publish n snapshot => s.publish n snapshot
  | .stop n => s.stop n
  | .release n => s.release n
  | .recordFault n fault => s.modify n (fun a => { a with startFault := some fault })
  | .confirmStart n child id generation => s.confirmStart n child id generation
  | .register n service => s.register n service
  | .deliver service event => s.deliver service event
  | .stopService service => s.stopService service
  | .operate k operation => s.operate k operation
  | .noteSent k event =>
    match s.callbacks[k]? with
    | none => s
    | some c => s.observe (.called c.src c.id (.sent event true))
  | .noteFailed k =>
    match s.callbacks[k]? with
    | none => s
    | some c => s.observe (.called c.src c.id (.failed true c.disposed))
  | .unsubscribe listener => s.unsubscribe listener
  | .advance target => s.advance target
  | .ring alarm => s.ring alarm
  | .settle => s.settle

/-- The session after the first work of the agenda, if there is one. -/
def step (s : Session) : Option Session :=
  match s.agenda with
  | [] => none
  | w :: rest => some ({ s with agenda := rest }.carryOut w)

/-- The session after as many steps as the fuel allows, or until nothing is left to do. -/
def run : Nat → Session → Session
  | 0, s => s
  | fuel + 1, s =>
    match s.step with
    | none => s
    | some next => run fuel next

end Statechart.Session
