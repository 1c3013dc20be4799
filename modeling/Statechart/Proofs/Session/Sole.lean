import Mathlib.Logic.Relation
import Statechart.Proofs.Machine.Seclusion
import Statechart.Proofs.Machine.Loop
import Statechart.Session.Operations

/-!
# Sessions of one interpreter

How a session works off its agenda when its only interpreter is solitary, and the snapshots of
the machine concern no one else: a snapshot is stored, its actions are carried out, and it is
shown (`leads_commit`); a fault stops the interpreter (`leads_fail`).
-/

namespace Statechart

/-- Whether the interpreter of a machine stands alone: no other one invoked it, it does not resume
anything, and it has no live services and no delayed sends. -/
structure Actor.Solitary (m : Machine) (a : Actor) : Prop where
  machine : a.machine = m
  link : a.link = none
  resume : a.resume = none
  services : a.services = []
  timers : a.timers = []

/-- The interpreter with further events of its own in the mailbox. -/
def Actor.receive (a : Actor) (events : List Event) : Actor :=
  { a with mailbox := { a.mailbox with queue := a.mailbox.queue ++ events.map Envelope.external } }

/-- The interpreter after it was stopped. -/
def Actor.halted (a : Actor) : Actor :=
  { a with
    status := .stopped
    services := []
    mailbox := a.mailbox.clear
    listeners := a.listeners.clear }

section

variable {m : Machine} {a : Actor}

theorem Actor.Solitary.receive (ha : a.Solitary m) (events : List Event) :
  (a.receive events).Solitary m
  := ⟨ha.machine, ha.link, ha.resume, ha.services, ha.timers⟩

theorem Actor.Solitary.store (ha : a.Solitary m) (snapshot : Snapshot) :
  Actor.Solitary m { a with state := some snapshot }
  := ⟨ha.machine, ha.link, ha.resume, ha.services, ha.timers⟩

theorem Actor.Solitary.halted (ha : a.Solitary m) :
  a.halted.Solitary m
  := ⟨ha.machine, ha.link, ha.resume, rfl, ha.timers⟩

end

/-- What is seen when an action of a snapshot is carried out by a machine that it concerns
alone. -/
def Machine.seen (m : Machine) (s : Snapshot) (action : ResolvedAction) : List Observation :=
  match action.duty with
  | .execute _ => [.executed action.type s.context action.trigger]
  | .log none label =>
    [.logged label (.obj [("context", s.context), ("event", action.trigger.wire)])]
  | .log (some e) label =>
    (m.eval e s.context action.trigger).toOption.toList.map (.logged label)
  | .unresolved reason => [.diagnosed (.unresolvedAction action.type reason)]
  | _ => []

/-- What is seen when a snapshot is shown to the listeners. -/
def Machine.announced (m : Machine) (listeners : List String) (s : Snapshot) :
    List Observation :=
  listeners.map (fun l => .published l s) ++
    if s.done then [.completed (.stateDone m.chart.id (s.doneData.getD .null))] else []

namespace Session

/-- Whether a session gets to another one by its next work. -/
def Steps (s u : Session) : Prop :=
  s.step = some u

/-- Whether a session gets to another one by some work. -/
abbrev Leads : Session → Session → Prop :=
  Relation.ReflTransGen Steps

variable {s u : Session} {fuel : Nat}

/-- A session that has nothing left to do is not affected by a run. -/
theorem run_of_agenda_eq_nil (h : s.agenda = []) :
  s.run fuel = s
  := by
  cases fuel with
  | zero => rfl
  | succ fuel => rw [run, step, h]

/-- A run that does all work does what comes after the first work in less steps. -/
theorem exists_run_of_steps (h : Steps s u) (hend : (s.run fuel).agenda = []) :
  ∃ fuel' < fuel, u.run fuel' = s.run fuel
  := by
  cases fuel with
  | zero =>
    rw [run] at hend
    rw [Steps, step, hend] at h
    cases h
  | succ fuel =>
    refine ⟨fuel, Nat.lt_succ_self fuel, ?_⟩
    rw [run, show s.step = some u from h]

theorem exists_run_of_transGen (h : Relation.TransGen Steps s u)
    (hend : (s.run fuel).agenda = []) :
  ∃ fuel' < fuel, u.run fuel' = s.run fuel
  := by
  induction h with
  | single h => exact exists_run_of_steps h hend
  | tail _ h ih =>
    obtain ⟨fuel₁, hlt₁, hrun₁⟩ := ih
    obtain ⟨fuel₂, hlt₂, hrun₂⟩ := exists_run_of_steps h (hrun₁ ▸ hend)
    exact ⟨fuel₂, Nat.lt_trans hlt₂ hlt₁, hrun₂.trans hrun₁⟩

theorem exists_run_of_leads (h : Leads s u) (hend : (s.run fuel).agenda = []) :
  ∃ fuel', u.run fuel' = s.run fuel
  := by
  rcases Relation.reflTransGen_iff_eq_or_transGen.mp h with rfl | h
  · exact ⟨fuel, rfl⟩
  · obtain ⟨fuel', -, hrun⟩ := exists_run_of_transGen h hend
    exact ⟨fuel', hrun⟩

/-- A run that does all work ends where the session leads to without work. -/
theorem Leads.run_eq (h : Leads s u) (hu : u.agenda = []) (hend : (s.run fuel).agenda = []) :
  s.run fuel = u
  := by
  obtain ⟨fuel', hrun⟩ := exists_run_of_leads h hend
  rw [← hrun, run_of_agenda_eq_nil hu]

/-- What a session leads to is reached by a run. -/
theorem Leads.exists_run (h : Leads s u) :
  ∃ fuel, s.run fuel = u
  := by
  induction h using Relation.ReflTransGen.head_induction_on with
  | refl => exact ⟨0, rfl⟩
  | head h _ ih =>
    obtain ⟨fuel, hrun⟩ := ih
    refine ⟨fuel + 1, ?_⟩
    rw [run, show Session.step _ = some _ from h, ← hrun]

/-- The session with a sole interpreter, with the given observations and the given work to be
done. -/
def sole (s : Session) (a : Actor) (trace : List Observation) (agenda : List Work) : Session :=
  { s with actors := [a], trace, agenda }

variable {m : Machine} {a : Actor} {trace : List Observation} {agenda : List Work}
  {snapshot : Snapshot} {action : ResolvedAction} {event : Event}

@[simp]
theorem actor?_sole :
  (s.sole a trace agenda).actor? root = some a
  := rfl

@[simp]
theorem modify_sole (change : Actor → Actor) :
  (s.sole a trace agenda).modify root change = s.sole (change a) trace agenda
  := rfl

@[simp]
theorem plan_sole (works : List Work) :
  (s.sole a trace agenda).plan works = s.sole a trace (works ++ agenda)
  := rfl

@[simp]
theorem observe_sole (o : Observation) :
  (s.sole a trace agenda).observe o = s.sole a (trace ++ [o]) agenda
  := rfl

@[simp]
theorem diagnose_sole (d : Diagnostic) :
  (s.sole a trace agenda).diagnose d = s.sole a (trace ++ [.diagnosed d]) agenda
  := rfl

@[simp]
theorem isRunning_sole :
  (s.sole a trace agenda).isRunning root = (a.status == .running)
  := rfl

@[simp]
theorem queue_sole :
  (s.sole a trace agenda).queue root (.external event) = s.sole (a.receive [event]) trace agenda
  := rfl

/-- The first work of a sole interpreter is done next. -/
theorem steps_sole (work : Work) (h : (s.sole a trace agenda).carryOut work = u) :
  Steps (s.sole a trace (work :: agenda)) u
  := by
  rw [← h]
  rfl

theorem receive_nil (a : Actor) :
  a.receive [] = a
  := by
  simp [Actor.receive]

theorem receive_receive (a : Actor) (events events' : List Event) :
  (a.receive events).receive events' = a.receive (events ++ events')
  := by
  simp [Actor.receive]

/-! ### Actions -/

/-- An action that concerns the machine alone shows what is to be seen, and puts what it sends
into the mailbox. -/
theorem perform_sole (ha : a.Solitary m) (hrunning : a.status = .running)
    (haction : action.duty.Secluded) :
  (s.sole a trace agenda).perform root snapshot action =
    s.sole (a.receive action.sent?.toList) (trace ++ m.seen snapshot action) agenda
  := by
  rw [perform, isRunning_sole, hrunning, Machine.seen, ResolvedAction.sent?]
  cases hduty : action.duty with
  | start invocation data =>
    rw [hduty] at haction
    cases haction
  | execute effect =>
    rw [hduty] at haction
    simp [haction snapshot.context action.trigger, receive_nil]
  | send send =>
    rw [hduty] at haction
    obtain ⟨hmyself, hdelay⟩ := haction
    have hroute : (s.sole a trace agenda).dispatch root send =
        (s.sole a trace agenda).route root send.destination send.event := by
      rw [dispatch]
      split
      · next delay hd => cases hdelay _ hd
      · rfl
    simp [hroute, route, hmyself]
  | log expression label =>
    cases expression with
    | none => simp [log, receive_nil]
    | some e =>
      cases heval : (m.eval e snapshot.context action.trigger).toOption with
      | none => simp [log, receive_nil, ha.machine, heval]
      | some value => simp [log, receive_nil, ha.machine, heval]
  | cancel id => simp [cancelSend, ha.timers, receive_nil]
  | stop id => simp [ha.services, receive_nil]
  | unresolved reason => simp [receive_nil]

/-- The actions of a snapshot are carried out one after the other. -/
theorem leads_perform (ha : a.Solitary m) (hrunning : a.status = .running)
    {actions : List ResolvedAction}
    (hactions : ∀ action ∈ actions, action.duty.Secluded) :
  Leads (s.sole a trace (actions.map (Work.perform root snapshot) ++ agenda))
    (s.sole (a.receive (actions.filterMap ResolvedAction.sent?))
      (trace ++ actions.flatMap (m.seen snapshot)) agenda)
  := by
  induction actions generalizing a trace with
  | nil =>
    simp only [List.map_nil, List.nil_append, List.filterMap_nil, List.flatMap_nil,
      List.append_nil, receive_nil]
    exact .refl
  | cons action actions ih =>
    obtain ⟨hfirst, hrest⟩ := List.forall_mem_cons.mp hactions
    apply Relation.ReflTransGen.head
    · apply steps_sole
      exact perform_sole ha hrunning hfirst
    · rw [List.flatMap_cons, List.filterMap_eq_flatMap_toList, List.flatMap_cons,
        ← List.filterMap_eq_flatMap_toList, ← receive_receive, ← List.append_assoc]
      exact ih (ha.receive action.sent?.toList) hrunning hrest

/-- A snapshot whose actions concern the machine alone starts no invocations. -/
theorem invocations_eq_nil {actions : List ResolvedAction}
    (hactions : ∀ action ∈ actions, action.duty.Secluded) :
  invocations root snapshot actions = []
  := by
  induction actions with
  | nil => rfl
  | cons action actions ih =>
    obtain ⟨hfirst, hrest⟩ := List.forall_mem_cons.mp hactions
    rw [invocations]
    split
    · next hduty =>
      rw [hduty] at hfirst
      cases hfirst
    · exact ih hrest

/-! ### Snapshots -/

/-- An interpreter that is stopped empties its mailbox and loses its listeners. -/
theorem leads_stop (ha : a.Solitary m) (hrunning : a.status = .running) :
  Leads (s.sole a trace (.stop root :: agenda)) (s.sole a.halted trace agenda)
  := by
  apply Relation.ReflTransGen.head
  · apply steps_sole
    simp only [carryOut, stop, actor?_sole, hrunning, ha.services, ha.timers]
    rfl
  · apply Relation.ReflTransGen.single
    apply steps_sole
    rfl

theorem foldl_observe_sole (listeners : List String) :
  listeners.foldl (fun s l => s.observe (.published l snapshot)) (s.sole a trace agenda) =
    s.sole a (trace ++ listeners.map (fun l => .published l snapshot)) agenda
  := by
  induction listeners generalizing trace with
  | nil => simp
  | cons l listeners ih =>
    rw [List.foldl_cons, observe_sole, ih]
    simp

/-- A snapshot is shown to the listeners, and one that is done stops the interpreter. -/
theorem leads_publish (ha : a.Solitary m) (hrunning : a.status = .running) :
  Leads (s.sole a trace (.publish root snapshot :: agenda))
    (s.sole (if snapshot.done then a.halted else a)
      (trace ++ m.announced a.listeners.toList snapshot) agenda)
  := by
  have hpublish : (s.sole a trace agenda).publish root snapshot =
      s.sole a (trace ++ m.announced a.listeners.toList snapshot)
        (if snapshot.done then .stop root :: agenda else agenda) := by
    rw [publish, actor?_sole]
    simp only [hrunning, ne_eq, not_true_eq_false, if_false, foldl_observe_sole, ha.link,
      ha.machine]
    cases hdone : snapshot.done with
    | true => simp [Machine.announced, hdone]
    | false => simp [Machine.announced, hdone]
  apply Relation.ReflTransGen.head (steps_sole (.publish root snapshot) hpublish)
  split
  · exact leads_stop ha hrunning
  · exact .refl

/-- The interpreter after a new snapshot. -/
def taken (a : Actor) (snapshot : Snapshot) : Actor :=
  let a := Actor.receive { a with state := some snapshot } snapshot.sent
  if snapshot.done then a.halted else a

/-- A new snapshot is stored, its actions are carried out, and it is shown. -/
theorem leads_commit (ha : a.Solitary m) (hrunning : a.status = .running)
    (hsnapshot : snapshot.Secluded) :
  Leads ((s.sole a trace agenda).commit root snapshot)
    (s.sole (taken a snapshot)
      (trace ++ (snapshot.actions.flatMap (m.seen snapshot) ++
        m.announced a.listeners.toList snapshot)) agenda)
  := by
  rw [commit, modify_sole, plan_sole, invocations_eq_nil hsnapshot, List.append_nil,
    List.append_assoc]
  have hstored := ha.store snapshot
  apply (leads_perform hstored hrunning hsnapshot).trans
  rw [← List.append_assoc]
  exact leads_publish (hstored.receive snapshot.sent) hrunning

/-- A fault is reported and stops the interpreter. -/
theorem leads_fail (ha : a.Solitary m) (hrunning : a.status = .running) (fault : Fault)
    (andThen : List Work) :
  Leads ((s.sole a trace agenda).fail root fault andThen)
    (s.sole a.halted (trace ++ [.diagnosed (.configurationError fault.message)])
      (andThen ++ agenda))
  := leads_stop ha hrunning

end Session

end Statechart
