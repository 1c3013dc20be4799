import Statechart.Event

/-!
# Mailboxes

A queue of events with their origins, and a flag that one caller raises while it drains
the queue.  `Mailbox.drain` hands envelopes to a handler one at a time until none is left;
a drain from inside the handler finds the flag up and returns at once.
-/

namespace Statechart

/-- The key of a delayed send: the id that the definition gives, or the number of a send
without one. -/
inductive SendId where
  | named (id : String)
  | automatic (number : Nat)
  deriving DecidableEq, Repr

/-- Where an event came from. -/
inductive Origin where
  | start
  | external
  | service (id : String) (generation : Nat)
  | timer (sendId : SendId) (generation : Nat)
  deriving DecidableEq, Repr

/-- An event with its origin. -/
structure Envelope where
  event : Event
  origin : Origin

/-- The envelope of an event that the machine or a caller sent. -/
def Envelope.external (event : Event) : Envelope :=
  ⟨event, .external⟩

/-- A mailbox. -/
structure Mailbox where
  queue : List Envelope := []
  draining : Bool := false

namespace Mailbox

/-- The mailbox with one more envelope at the end. -/
def push (m : Mailbox) (e : Envelope) : Mailbox :=
  { m with queue := m.queue ++ [e] }

/-- The mailbox with one more envelope ahead of all others. -/
def pushFront (m : Mailbox) (e : Envelope) : Mailbox :=
  { m with queue := e :: m.queue }

/-- The number of envelopes. -/
def size (m : Mailbox) : Nat :=
  m.queue.length

/-- The mailbox without its envelopes. -/
def clear (m : Mailbox) : Mailbox :=
  { m with queue := [] }

/-- The mailbox with the flag raised, unless it is up already. -/
def claim? (m : Mailbox) : Option Mailbox :=
  if m.draining then none else some { m with draining := true }

/-- The mailbox with the flag lowered. -/
def release (m : Mailbox) : Mailbox :=
  { m with draining := false }

/-- The first envelope and the mailbox without it. -/
def next? (m : Mailbox) : Option (Envelope × Mailbox) :=
  match m.queue with
  | [] => none
  | e :: rest => some (e, { m with queue := rest })

/-- A handler of envelopes with a state of its own. -/
abbrev Handler (σ : Type) := Envelope → Mailbox → σ → Mailbox × σ

/-- The mailbox and the state after the envelopes are handled one by one, with the number of
those that were handled.  When none is left the flag is lowered, and the mailbox is claimed again
if there is an envelope in it by then.  The fuel bounds the number of envelopes. -/
def drainClaimed {σ : Type} (handle : Handler σ) :
    Nat → Mailbox → σ → Nat → Mailbox × σ × Nat
  | 0, m, s, handled => (m.release, s, handled)
  | fuel + 1, m, s, handled =>
    match m.next? with
    | none =>
      let m := m.release
      if m.queue.isEmpty then (m, s, handled)
      else
        match m.claim? with
        | none => (m, s, handled)
        | some m => drainClaimed handle fuel m s handled
    | some (e, rest) =>
      let (m, s) := handle e rest s
      drainClaimed handle fuel m s (handled + 1)

/-- The mailbox and the state after a drain, with the number of envelopes that it handled:
none if another drain is under way. -/
def drain {σ : Type} (handle : Handler σ) (fuel : Nat) (m : Mailbox) (s : σ) :
    Mailbox × σ × Nat :=
  match m.claim? with
  | none => (m, s, 0)
  | some m => drainClaimed handle fuel m s 0

/-- A drain from inside a drain does nothing. -/
theorem drain_of_draining {σ : Type} (handle : Handler σ) (fuel : Nat) {m : Mailbox} (s : σ)
    (h : m.draining = true) :
  m.drain handle fuel s = (m, s, 0)
  := by
  simp [drain, claim?, h]

end Mailbox

end Statechart
