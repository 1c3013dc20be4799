import Statechart.Session.Step

/-!
# Operations on sessions

What a caller can do with a session.  Each operation puts its work on the agenda, which
`Session.run` then does.
-/

namespace Statechart.Session

/-- The session of a machine that is not started yet. -/
def ofMachine (machine : Machine) (catalog : List (String × Source)) : Session where
  actors := [{ link := none, machine, settings := {} }]
  catalog := catalog

/-- The session with settings applied; their bound of the microsteps replaces that of the
machine. -/
def withSettings (s : Session) (settings : Settings) : Session :=
  s.modify root (fun a => { a with machine := a.machine.withLimit settings.limit, settings })

/-- Starts the root. -/
def starting (s : Session) : Session :=
  s.plan [.start root]

/-- Starts the root from a persisted state. -/
def startingFrom (s : Session) (persisted : Persisted) : Session :=
  (s.modify root (fun a => { a with resume := some persisted })).plan [.start root]

/-- Why the last start of the root failed, and the session without that note. -/
def takeFault (s : Session) : Option Fault × Session :=
  ((s.actor? root).bind Actor.startFault,
    s.modify root (fun a => { a with startFault := none }))

/-- Sends an event to the root. -/
def sending (s : Session) (event : Event) : Session :=
  s.plan [.send root event]

/-- Stops the root. -/
def stopping (s : Session) : Session :=
  s.plan [.stop root]

/-- Moves the clock forward. -/
def advancing (s : Session) (micros : Nat) : Session :=
  s.plan [.advance (s.clock.now + micros)]

/-- Delivers the results of the tasks. -/
def settling (s : Session) : Session :=
  s.plan [.settle]

/-- Adds a listener at the root; a running interpreter shows it the current snapshot. -/
def subscribe (s : Session) (listener : String) : Session :=
  match s.actor? root with
  | none => s
  | some a =>
    let s := { s.modify root (fun a => { a with listeners := a.listeners.subscribe listener }) with
      subscriptions := Association.insert listener a.listeners.nextNumber s.subscriptions }
    match a.status, a.state with
    | .running, some snapshot => s.observe (.published listener snapshot)
    | _, _ => s

/-- Whether there is a listener of a name to be taken off. -/
def hasSubscription (s : Session) (listener : String) : Bool :=
  s.subscriptions.any (fun e => e.1 == listener)

/-- The callback services that were ever started from a source, in order. -/
def callbacksOf (s : Session) (src : String) : List (Nat × Callback) :=
  (s.callbacks.zipIdx.filter (fun e => e.1.src == src)).map (fun e => (e.2, e.1))

/-- Sends an event through the gate of a callback service. -/
def emitting (s : Session) (c : Callback) (event : Event) : Session :=
  if c.disposed then s else s.plan [.post c.owner (c.envelope event)]

/-- The live service of an id at an interpreter. -/
def service? (s : Session) (n : Nat) (id : String) : Option Service :=
  (s.actor? n).bind (fun a => a.services.lookup id)

/-- The ids of the live services of an interpreter. -/
def serviceIds (s : Session) (n : Nat) : List String :=
  ((s.actor? n).map (fun a => a.services.map Prod.fst)).getD []

/-- The current snapshot of an interpreter. -/
def state? (s : Session) (n : Nat) : Option Snapshot :=
  (s.actor? n).bind Actor.state

/-- The interpreter that a path of invocation ids leads to. -/
def descendant? (s : Session) (n : Nat) : List String → Option Nat
  | [] => some n
  | id :: rest =>
    match (s.service? n id).bind (fun service => service.backing.actor?) with
    | none => none
    | some c => s.descendant? c rest

/-- The session without its observations. -/
def forget (s : Session) : Session :=
  { s with trace := [] }

end Statechart.Session
