import Statechart.Proofs.Session.Sole

/-!
# Rounds of a session

A session whose only interpreter runs a secluded machine follows the loop of the machine: each
round of the loop takes one envelope from the mailbox (`exists_transGen_of_next?`), so that the
session ends its drain exactly if the loop comes to rest.
-/

namespace Statechart

namespace Loop

/-- The envelopes in the mailbox of an interpreter that follows a loop; before the first
snapshot the boot marker comes ahead of all events. -/
def envelopes (l : Loop) : List Envelope :=
  if l.isOver then []
  else if l.shown.isEmpty then ⟨.init, .start⟩ :: l.queue.map .external
  else l.queue.map .external

/-- What is seen of a session that follows a loop: the actions of each snapshot, then the
snapshot itself, and at last the fault if there is one. -/
def observations (m : Machine) (listeners : List String) (l : Loop) : List Observation :=
  l.shown.flatMap (fun s => s.actions.flatMap (m.seen s) ++ m.announced listeners s) ++
    l.fault.toList.map (fun fault => .diagnosed (.configurationError fault.message))

variable {m : Machine} {listeners : List String} {l : Loop} {s : Snapshot} {fault : Fault}
  {event : Event}

theorem fault_eq_none (h : l.isOver = false) :
  l.fault = none
  := by
  rw [isOver, Bool.or_eq_false_iff] at h
  exact Option.isNone_iff_eq_none.mp (by simpa using h.1)

theorem isOver_absorb_ok (h : l.isOver = false) (s : Snapshot) :
  (l.absorb (.ok s)).isOver = s.done
  := by
  simp [absorb, isOver, fault_eq_none h]

theorem envelopes_absorb_ok (h : l.isOver = false) (s : Snapshot) :
  (l.absorb (.ok s)).envelopes =
    if s.done then [] else (l.queue ++ s.sent).map .external
  := by
  rw [envelopes, isOver_absorb_ok h]
  simp [absorb]

theorem envelopes_push (h : l.isOver = false) (event : Event) :
  (l.push event).envelopes = l.envelopes ++ [.external event]
  := by
  have hpush : (l.push event).isOver = false := h
  rw [envelopes, envelopes, hpush, h]
  simp only [Bool.false_eq_true, if_false, push, List.map_append, List.map_cons, List.map_nil]
  split <;> rfl

/-- Before the first snapshot the boot marker comes first. -/
theorem envelopes_of_getLast?_eq_none (h : l.isOver = false) (hshown : l.shown.getLast? = none) :
  l.envelopes = ⟨.init, .start⟩ :: l.queue.map .external
  := by
  rw [envelopes, h, List.getLast?_eq_none_iff.mp hshown]
  rfl

theorem envelopes_of_getLast?_eq_some (h : l.isOver = false)
    (hshown : l.shown.getLast? = some s) :
  l.envelopes = l.queue.map .external
  := by
  rw [envelopes, h]
  cases hl : l.shown with
  | nil =>
    rw [hl] at hshown
    cases hshown
  | cons first shown => rfl

/-- A loop that is at rest has nothing to take. -/
theorem envelopes_of_next?_eq_none (h : l.next? m = none) :
  l.envelopes = []
  := by
  rw [next?] at h
  split at h
  · next hover => rw [envelopes, if_pos hover]
  · next hopen =>
    split at h
    · cases h
    · cases h
    · next current hshown hqueue =>
      rw [envelopes_of_getLast?_eq_some (by simpa using hopen) hshown, hqueue]
      rfl

theorem observations_absorb_ok (h : l.isOver = false) (s : Snapshot) :
  (l.absorb (.ok s)).observations m listeners = l.observations m listeners ++
    (s.actions.flatMap (m.seen s) ++ m.announced listeners s)
  := by
  simp [observations, absorb, fault_eq_none h]

theorem observations_absorb_error (h : l.isOver = false) (fault : Fault) :
  (l.absorb (.error fault)).observations m listeners = l.observations m listeners ++
    [.diagnosed (.configurationError fault.message)]
  := by
  simp [observations, absorb, fault_eq_none h]

end Loop

namespace Actor

/-- Whether an interpreter is where a loop of its machine is. -/
structure Follows (m : Machine) (listeners : List String) (l : Loop) (a : Actor) : Prop
    extends Solitary m a where
  state : a.state = l.shown.getLast?
  status : a.status = if l.isOver then .stopped else .running
  listeners : l.isOver = false → a.listeners.toList = listeners

/-- Whether moreover the mailbox holds what the loop has to take; the flag tells whether it is
being drained. -/
structure Stands (m : Machine) (listeners : List String) (l : Loop) (draining : Bool)
    (a : Actor) : Prop extends Follows m listeners l a where
  mailbox : a.mailbox = ⟨l.envelopes, draining⟩

variable {m : Machine} {listeners : List String} {l l' : Loop} {a : Actor} {s : Snapshot}
  {draining : Bool}

theorem Follows.running (h : a.Follows m listeners l) (hopen : l.isOver = false) :
  a.status = .running
  := by
  rw [h.status, hopen]
  rfl

/-- The mailbox plays no part in where an interpreter is. -/
theorem Follows.withMailbox (h : a.Follows m listeners l) (mailbox : Mailbox) :
  Follows m listeners l { a with mailbox }
  := ⟨⟨h.machine, h.link, h.resume, h.services, h.timers⟩, h.state, h.status, h.listeners⟩

/-- The queue of a loop plays no part either. -/
theorem Follows.withQueue (h : a.Follows m listeners l) (queue : List Event) :
  Follows m listeners { l with queue } a
  := ⟨h.toSolitary, h.state, h.status, h.listeners⟩

theorem Stands.withStartFault (h : a.Stands m listeners l draining)
    (startFault : Option Fault) :
  Stands m listeners l draining { a with startFault }
  := ⟨⟨⟨h.machine, h.link, h.resume, h.services, h.timers⟩, h.state, h.status, h.listeners⟩,
    h.mailbox⟩

/-- After a snapshot an interpreter is where the loop is. -/
theorem Follows.stands_taken (h : a.Follows m listeners l) (hopen : l.isOver = false)
    (hmailbox : a.mailbox = ⟨l.queue.map .external, draining⟩) (s : Snapshot) :
  Stands m listeners (l.absorb (.ok s)) draining (Session.taken a s)
  := by
  have hsolitary := (h.toSolitary.store s).receive s.sent
  have hover := Loop.isOver_absorb_ok hopen s
  have henvelopes := Loop.envelopes_absorb_ok hopen s
  rw [Session.taken]
  cases hdone : s.done with
  | true =>
    rw [hdone] at hover henvelopes
    constructor
    case mailbox =>
      rw [henvelopes]
      simp [halted, receive, Mailbox.clear, hmailbox]
    case toFollows =>
      constructor
      case toSolitary => exact hsolitary.halted
      case state => simp [halted, receive, Loop.absorb]
      case status =>
        rw [hover]
        rfl
      case listeners =>
        rw [hover]
        intro hfalse
        cases hfalse
  | false =>
    rw [hdone] at hover henvelopes
    constructor
    case mailbox =>
      rw [henvelopes]
      simp [receive, hmailbox]
    case toFollows =>
      constructor
      case toSolitary => exact hsolitary
      case state => simp [receive, Loop.absorb]
      case status =>
        rw [hover]
        exact h.running hopen
      case listeners => exact fun _ => h.listeners hopen

/-- After a fault an interpreter is where the loop is. -/
theorem Follows.stands_halted (h : a.Follows m listeners l)
    (hmailbox : a.mailbox.draining = draining) (fault : Fault) :
  Stands m listeners (l.absorb (.error fault)) draining a.halted
  := by
  constructor
  case mailbox =>
    rw [halted, Mailbox.clear, hmailbox]
    rfl
  case toFollows =>
    constructor
    case toSolitary => exact h.toSolitary.halted
    case state => exact h.state
    case status => rfl
    case listeners =>
      intro hfalse
      cases hfalse

end Actor

namespace Session

open Actor

variable {m : Machine} {listeners : List String} {l l₁ l' : Loop} {a : Actor} {s u : Session}
  {event : Event} {trace : List Observation} {agenda : List Work}

/-- The next envelope is taken from the mailbox and handled. -/
theorem transGen_pump {e : Envelope} {rest : List Envelope} {draining : Bool}
    (hmailbox : a.mailbox = ⟨e :: rest, draining⟩)
    (hhandle : Leads ((s.sole { a with mailbox := ⟨rest, draining⟩ } trace
      (.pump root :: agenda)).handle root e) u) :
  Relation.TransGen Steps (s.sole a trace (.pump root :: agenda)) u
  := by
  apply Relation.TransGen.head' (b := s.sole { a with mailbox := ⟨rest, draining⟩ } trace
    (.handle root e :: .pump root :: agenda))
  · apply steps_sole
    simp [carryOut, pump, hmailbox, Mailbox.next?]
  · exact .head (steps_sole (.handle root e) rfl) hhandle

/-- The session with an answer of the machine taken: a snapshot is stored and carried out, and a
fault stops the interpreter for good. -/
def answered (s : Session) (n : Nat) (andThen : Fault → List Work) :
    Except Fault Snapshot → Session
  | .ok snapshot => s.commit n snapshot
  | .error fault => s.fail n fault (andThen fault)

/-- An interpreter that was just started takes the first snapshot. -/
theorem handle_start (ha : a.Solitary m) (hrunning : a.status = .running) (event : Event) :
  (s.sole a trace agenda).handle root ⟨event, .start⟩ =
    (s.sole a trace agenda).answered root (fun fault => [.recordFault root fault]) m.initial
  := by
  have hresumed : { a with resume := none } = a := by
    cases a
    cases ha.resume
    rfl
  have hboot : (s.sole a trace agenda).handle root ⟨event, .start⟩ =
      (s.sole a trace agenda).boot root := by
    simp [handle, hrunning]
  rw [hboot, boot, actor?_sole]
  dsimp only
  rw [modify_sole, hresumed, ha.resume, ha.machine]
  cases m.initial <;> rfl

/-- An interpreter takes an event in its last snapshot. -/
theorem leads_handle_external {current : Snapshot} (ha : a.Solitary m)
    (hrunning : a.status = .running) (hstate : a.state = some current) :
  Leads ((s.sole a trace agenda).handle root (.external event))
    ((s.sole a trace agenda).answered root (fun _ => []) (m.transition current event))
  := by
  have hhandle : (s.sole a trace agenda).handle root (.external event) =
      s.sole a trace (.macrostep root event .external :: agenda) := by
    simp [handle, hrunning, Envelope.external]
  have hmacrostep : (s.sole a trace agenda).macrostep root event .external =
      s.sole a trace (.react root current event :: agenda) := by
    simp [macrostep, hstate, forwardTargets, ha.services]
  have hreact : (s.sole a trace agenda).react root current event =
      (s.sole a trace agenda).answered root (fun _ => []) (m.transition current event) := by
    simp only [react, actor?_sole, ha.machine]
    cases m.transition current event <;> rfl
  rw [hhandle]
  apply Relation.ReflTransGen.head (steps_sole (.macrostep root event .external) hmacrostep)
  exact .single (steps_sole (.react root current event) hreact)

/-- After an answer of the machine the interpreter stands where the loop is. -/
theorem exists_leads_answered (h : a.Follows m listeners l) (hopen : l.isOver = false)
    (hmailbox : a.mailbox = ⟨l.queue.map .external, true⟩) (answer : Except Fault Snapshot)
    (hanswer : ∀ snapshot, answer = .ok snapshot → snapshot.Secluded) (andThen : Fault → List Work)
    (hthen : ∀ fault, andThen fault = [] ∨ andThen fault = [.recordFault root fault])
    (agenda : List Work) :
  ∃ a₁, a₁.Stands m listeners (l.absorb answer) true ∧
    Leads ((s.sole a (l.observations m listeners) agenda).answered root andThen answer)
      (s.sole a₁ ((l.absorb answer).observations m listeners) agenda)
  := by
  have hrunning := h.running hopen
  cases answer with
  | ok snapshot =>
    use taken a snapshot, h.stands_taken hopen hmailbox snapshot
    rw [Loop.observations_absorb_ok hopen, ← h.listeners hopen]
    exact leads_commit h.toSolitary hrunning (hanswer snapshot rfl)
  | error fault =>
    have hstands := h.stands_halted (congrArg Mailbox.draining hmailbox) fault
    rw [Loop.observations_absorb_error hopen, answered]
    rcases hthen fault with hnil | hrecord
    · rw [hnil]
      exact ⟨a.halted, hstands, leads_fail h.toSolitary hrunning fault []⟩
    · rw [hrecord]
      refine ⟨_, hstands.withStartFault (some fault),
        (leads_fail h.toSolitary hrunning fault _).tail ?_⟩
      exact steps_sole (.recordFault root fault) rfl

/-- Each round of a loop is followed by a session whose interpreter stands where the loop
is. -/
theorem exists_transGen_of_next? (hm : m.Secluded) (h : a.Stands m listeners l true)
    (hnext : l.next? m = some l₁) (agenda : List Work) :
  ∃ a₁, a₁.Stands m listeners l₁ true ∧
    Relation.TransGen Steps (s.sole a (l.observations m listeners) (.pump root :: agenda))
      (s.sole a₁ (l₁.observations m listeners) (.pump root :: agenda))
  := by
  rw [Loop.next?] at hnext
  split at hnext
  · cases hnext
  next hopen =>
  rw [Bool.not_eq_true] at hopen
  split at hnext
  · next hshown =>
    cases hnext
    have hmailbox := h.mailbox
    rw [Loop.envelopes_of_getLast?_eq_none hopen hshown] at hmailbox
    have hfollows := h.toFollows.withMailbox ⟨l.queue.map .external, true⟩
    obtain ⟨a₁, hstands, hleads⟩ := exists_leads_answered (s := s) hfollows hopen rfl m.initial
      (fun snapshot => hm.secluded_initial) (fun fault => [.recordFault root fault])
      (fun fault => Or.inr rfl) (.pump root :: agenda)
    use a₁, hstands
    apply transGen_pump hmailbox
    rw [handle_start hfollows.toSolitary (hfollows.running hopen)]
    exact hleads
  · next current event rest hshown hqueue =>
    cases hnext
    have hmailbox := h.mailbox
    rw [Loop.envelopes_of_getLast?_eq_some hopen hshown, hqueue] at hmailbox
    have hfollows := (h.toFollows.withMailbox ⟨rest.map .external, true⟩).withQueue rest
    obtain ⟨a₁, hstands, hleads⟩ := exists_leads_answered (s := s) hfollows hopen rfl
      (m.transition current event) (fun snapshot => hm.secluded_transition) (fun _ => [])
      (fun fault => Or.inl rfl) (.pump root :: agenda)
    use a₁, hstands
    apply transGen_pump hmailbox
    exact (leads_handle_external hfollows.toSolitary (hfollows.running hopen)
      (hfollows.state.trans hshown)).trans hleads
  · cases hnext

/-- A loop that comes to rest is followed by a session that ends its drain. -/
theorem exists_leads_of_drains (hm : m.Secluded) (hdrains : m.Drains l l')
    (h : a.Stands m listeners l true) :
  ∃ a', a'.Stands m listeners l' false ∧
    Leads (s.sole a (l.observations m listeners) [.pump root])
      (s.sole a' (l'.observations m listeners) [])
  := by
  induction hdrains generalizing a with
  | @rest l hnone =>
    have hempty := Loop.envelopes_of_next?_eq_none hnone
    have hmailbox := h.mailbox
    rw [hempty] at hmailbox
    refine ⟨{ a with mailbox := ⟨[], false⟩ }, ⟨h.toFollows.withMailbox _, ?_⟩, .single ?_⟩
    · rw [hempty]
    · apply steps_sole
      simp [carryOut, pump, hmailbox, Mailbox.next?, Mailbox.release]
  | step hnext hrest ih =>
    obtain ⟨a₁, hstands, hround⟩ := exists_transGen_of_next? (s := s) hm h hnext []
    obtain ⟨a', hstands', hleads⟩ := ih hstands
    exact ⟨a', hstands', hround.to_reflTransGen.trans hleads⟩

/-- If a session that follows a loop ends its drain, the loop comes to rest. -/
theorem exists_drains_of_run (hm : m.Secluded) (h : a.Stands m listeners l true) {fuel : Nat}
    (hend : ((s.sole a (l.observations m listeners) [.pump root]).run fuel).agenda = []) :
  ∃ l', m.Drains l l'
  := by
  induction fuel using Nat.strongRecOn generalizing a l with
  | ind fuel ih =>
    cases hnext : l.next? m with
    | none => exact ⟨l, .rest hnext⟩
    | some l₁ =>
      obtain ⟨a₁, hstands, hround⟩ := exists_transGen_of_next? (s := s) hm h hnext []
      obtain ⟨fuel', hlt, hrun⟩ := exists_run_of_transGen hround hend
      obtain ⟨l', hdrains⟩ := ih fuel' hlt hstands (hrun ▸ hend)
      exact ⟨l', .step hnext hdrains⟩

end Session

end Statechart
