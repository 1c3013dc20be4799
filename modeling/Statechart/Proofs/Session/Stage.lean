import Statechart.Proofs.Machine.Invocation
import Statechart.Proofs.Session.Course

/-!
# Stages of an interpreter

The duties of an interpreter tell how far it is with an envelope: it is handled, forwarded and
taken; the actions of the new snapshot are carried out, its invocations are started one by one,
and it is shown.  An interpreter is always at one of these stages (`Stage`), and takes the boot
marker before it has a snapshot and only then (`Course.orderly`).
-/

namespace Statechart

/-- The duties of an interpreter that starts the invocations of its snapshot. -/
inductive Starting (n : Nat) (snapshot : Snapshot) : List Work → Prop where
  | publish : Starting n snapshot [.publish n snapshot, .pump n]
  | invoke {action later ds} (h : Starting n snapshot ds)
      (hlater : action :: later <:+ snapshot.actions) :
      Starting n snapshot (.invoke n snapshot action later :: ds)

/-- The duties of an interpreter that carries out the actions of its snapshot, before it starts
the invocations. -/
inductive Performing (n : Nat) (snapshot : Snapshot) : List Work → Prop where
  | starting {ds} (h : Starting n snapshot ds) : Performing n snapshot ds
  | perform {action ds} (h : Performing n snapshot ds) :
      Performing n snapshot (.perform n snapshot action :: ds)

/-- The duties of an interpreter with a snapshot or without one, from the moment on that it
takes an envelope. -/
inductive Stage (n : Nat) : Option Snapshot → List Work → Prop where
  | resting {state} : Stage n state []
  | waiting {state} : Stage n state [.pump n]
  | handling {state e} : Stage n state [.handle n e, .pump n]
  | forwarding {state event origin} : Stage n state [.macrostep n event origin, .pump n]
  | reacting {snapshot event} : Stage n (some snapshot) [.react n snapshot event, .pump n]
  | failing {state fault} : Stage n state [.recordFault n fault, .pump n]
  | performing {snapshot ds} (h : Performing n snapshot ds) : Stage n (some snapshot) ds
  | registering {snapshot service ds} (hbacking : ∀ child, service.backing ≠ .machine child)
      (h : Starting n snapshot ds) : Stage n (some snapshot) (.register n service :: ds)
  | registeringMachine {snapshot service child ds} (hbacking : service.backing = .machine child)
      (h : Starting n snapshot ds) : Stage n (some snapshot)
        (.register n service :: .confirmStart n child service.id service.generation :: ds)
  | confirming {snapshot child id generation ds} (h : Starting n snapshot ds) :
      Stage n (some snapshot) (.confirmStart n child id generation :: ds)

theorem Status.eq_running {status : Status} (hstarted : status ≠ .notStarted)
    (hopen : status ≠ .stopped) :
  status = .running
  := by
  cases status with
  | notStarted => exact absurd rfl hstarted
  | running => rfl
  | stopped => exact absurd rfl hopen

/-- The envelope that a work handles. -/
def Work.envelope? : Work → Option Envelope
  | .handle _ e => some e
  | _ => none

/-- The envelopes that an interpreter has still to handle, in their order. -/
def Actor.backlog (a : Actor) (ds : List Work) : List Envelope :=
  ds.filterMap Work.envelope? ++ a.mailbox.queue

/-- What holds of an interpreter and its duties at all times. -/
structure Actor.Orderly (n : Nat) (a : Actor) (ds : List Work) : Prop where
  bracketed : a.machine.chart.Bracketed
  stage : Stage n a.state ds
  draining : a.mailbox.draining = !ds.isEmpty
  unstarted : a.status = .notStarted →
    ds = [] ∧ a.state = none ∧ ∀ e ∈ a.mailbox.queue, e.origin ≠ .start
  /-- At most the first envelope is a boot marker. -/
  unmarked : ∀ e ∈ (a.backlog ds).tail, e.origin ≠ .start
  marked : ∀ e ∈ a.backlog ds, e.origin = .start → a.state = none
  sound : ∀ snapshot, a.state = some snapshot →
    Collection.Sound a.machine.chart snapshot.actions

variable {n : Nat} {a b : Actor} {ds es : List Work} {w : Work} {snapshot : Snapshot}
  {state : Option Snapshot} {e : Envelope}

/-! ### Inversion -/

theorem Stage.of_pump (h : Stage n state (.pump n :: ds)) :
  ds = []
  := by
  cases h with
  | waiting => rfl
  | performing h =>
    cases h with
    | starting h => cases h

theorem Stage.of_handle (h : Stage n state (.handle n e :: ds)) :
  ds = [.pump n]
  := by
  cases h with
  | handling => rfl
  | performing h =>
    cases h with
    | starting h => cases h

theorem Stage.of_macrostep {event : Event} {origin : Origin}
    (h : Stage n state (.macrostep n event origin :: ds)) :
  ds = [.pump n]
  := by
  cases h with
  | forwarding => rfl
  | performing h =>
    cases h with
    | starting h => cases h

theorem Stage.of_react {event : Event} (h : Stage n state (.react n snapshot event :: ds)) :
  state = some snapshot ∧ ds = [.pump n]
  := by
  cases h with
  | reacting => exact ⟨rfl, rfl⟩
  | performing h =>
    cases h with
    | starting h => cases h

theorem Stage.of_recordFault {fault : Fault} (h : Stage n state (.recordFault n fault :: ds)) :
  ds = [.pump n]
  := by
  cases h with
  | failing => rfl
  | performing h =>
    cases h with
    | starting h => cases h

theorem Stage.of_perform {action : ResolvedAction}
    (h : Stage n state (.perform n snapshot action :: ds)) :
  state = some snapshot ∧ Performing n snapshot ds
  := by
  cases h with
  | performing h =>
    cases h with
    | starting h => cases h
    | perform h => exact ⟨rfl, h⟩

theorem Stage.of_invoke {action : ResolvedAction} {later : List ResolvedAction}
    (h : Stage n state (.invoke n snapshot action later :: ds)) :
  state = some snapshot ∧ Starting n snapshot ds ∧ action :: later <:+ snapshot.actions
  := by
  cases h with
  | performing h =>
    cases h with
    | starting h =>
      cases h with
      | invoke h hlater => exact ⟨rfl, h, hlater⟩

theorem Stage.of_publish (h : Stage n state (.publish n snapshot :: ds)) :
  ds = [.pump n]
  := by
  cases h with
  | performing h =>
    cases h with
    | starting h =>
      cases h with
      | publish => rfl

theorem Stage.of_confirmStart {child generation : Nat} {id : String}
    (h : Stage n state (.confirmStart n child id generation :: ds)) :
  ∃ snapshot, state = some snapshot ∧ Starting n snapshot ds
  := by
  cases h with
  | performing h =>
    cases h with
    | starting h => cases h
  | confirming h => exact ⟨_, rfl, h⟩

/-- Only the start of an invoked interpreter is to be confirmed after a registration. -/
theorem Stage.of_register {service : Service} (h : Stage n state (.register n service :: ds)) :
  ∃ snapshot, state = some snapshot ∧ (Starting n snapshot ds ∨ ∃ child rest,
    ds = .confirmStart n child service.id service.generation :: rest ∧
      service.backing = .machine child ∧ Starting n snapshot rest)
  := by
  cases h with
  | performing h =>
    cases h with
    | starting h => cases h
  | registering hbacking h => exact ⟨_, rfl, Or.inl h⟩
  | registeringMachine hbacking h => exact ⟨_, rfl, Or.inr ⟨_, _, rfl, hbacking, h⟩⟩

theorem Starting.ne_nil (h : Starting n snapshot ds) :
  ds ≠ []
  := by
  cases h <;> exact List.cons_ne_nil _ _

theorem Performing.ne_nil (h : Performing n snapshot ds) :
  ds ≠ []
  := by
  cases h with
  | starting h => exact h.ne_nil
  | perform h => exact List.cons_ne_nil _ _

/-- The works with which an interpreter goes on from its snapshot. -/
inductive Work.Follows (n : Nat) (snapshot : Snapshot) : Work → Prop where
  | perform {action} : Follows n snapshot (.perform n snapshot action)
  | invoke {action later} : Follows n snapshot (.invoke n snapshot action later)
  | publish : Follows n snapshot (.publish n snapshot)
  | pump : Follows n snapshot (.pump n)

theorem Performing.follows (h : Performing n snapshot ds) (hw : w ∈ ds) :
  w.Follows n snapshot
  := by
  have hstarting : ∀ {ds}, Starting n snapshot ds → w ∈ ds → w.Follows n snapshot := by
    intro ds h hw
    induction h with
    | publish =>
      rcases List.mem_pair.mp hw with rfl | rfl
      · exact .publish
      · exact .pump
    | invoke h hlater ih =>
      rcases List.mem_cons.mp hw with rfl | hw
      · exact .invoke
      · exact ih hw
  induction h with
  | starting h => exact hstarting h hw
  | perform h ih =>
    rcases List.mem_cons.mp hw with rfl | hw
    · exact .perform
    · exact ih hw

/-- What follows a new snapshot begins with its actions. -/
theorem performing_committed (snapshot : Snapshot) :
  Performing n snapshot (Session.committed n snapshot ++ [.pump n])
  := by
  have hstarts : ∀ later, later <:+ snapshot.actions → Starting n snapshot
      (Session.invocations n snapshot later ++ [.publish n snapshot, .pump n]) := by
    intro later hlater
    induction later with
    | nil => exact .publish
    | cons action later ih =>
      have hrest := ih ((List.suffix_cons action later).trans hlater)
      rw [Session.invocations]
      split
      · exact .invoke hrest hlater
      · exact hrest
  have hperforms : ∀ (actions : List ResolvedAction) ds, Starting n snapshot ds →
      Performing n snapshot (actions.map (.perform n snapshot) ++ ds) := by
    intro actions ds hds
    induction actions with
    | nil => exact .starting hds
    | cons action actions ih => exact .perform ih
  rw [Session.committed, List.append_assoc, List.append_assoc]
  exact hperforms _ _ (hstarts _ (List.suffix_refl _))

/-- All actions of a new snapshot are to be carried out. -/
theorem perform_mem_committed {action : ResolvedAction} (h : action ∈ snapshot.actions) :
  .perform n snapshot action ∈ Session.committed n snapshot ++ ds
  := by
  rw [Session.committed, List.append_assoc, List.append_assoc]
  exact List.mem_append_left _ (List.mem_map.mpr ⟨action, h, rfl⟩)

/-! ### Backlogs -/

@[simp]
theorem backlog_cons (a : Actor) (w : Work) (ds : List Work) :
  a.backlog (w :: ds) = w.envelope?.toList ++ a.backlog ds
  := by
  rw [Actor.backlog, Actor.backlog, List.filterMap_cons]
  cases w.envelope? <;> rfl

/-- What follows a new snapshot handles no envelope. -/
theorem backlog_committed (a : Actor) (snapshot : Snapshot) (ds : List Work) :
  a.backlog (Session.committed n snapshot ++ ds) = a.backlog ds
  := by
  rw [Actor.backlog, List.filterMap_append, List.filterMap_eq_nil_iff.mpr, List.nil_append]
  · rfl
  · intro w hw
    have hcommitted : ∀ {w}, w ∈ Session.committed n snapshot → w.envelope? = none := by
      intro w hw
      rw [Session.committed, List.mem_append, List.mem_append] at hw
      rcases hw with (hw | hw) | hw
      · obtain ⟨action, -, rfl⟩ := List.mem_map.mp hw
        rfl
      · obtain ⟨action, later, rfl, -⟩ := Session.duty?_of_mem_invocations hw
        rfl
      · rw [List.mem_singleton.mp hw]
        rfl
    exact hcommitted hw

theorem Performing.backlog (h : Performing n snapshot ds) (a : Actor) :
  a.backlog ds = a.mailbox.queue
  := by
  rw [Actor.backlog, List.filterMap_eq_nil_iff.mpr, List.nil_append]
  intro w hw
  cases h.follows hw <;> rfl

namespace Actor

/-- Whether two interpreters differ at most in what has no part in their order. -/
structure Kin (a b : Actor) : Prop where
  chart : b.machine.chart = a.machine.chart
  status : b.status = .notStarted → a.status = .notStarted
  state : b.state = a.state
  draining : b.mailbox.draining = a.mailbox.draining
  queue : ∃ es, b.mailbox.queue = a.mailbox.queue ++ es ∧ ∀ e ∈ es, e.origin ≠ .start

theorem Like.kin (h : a.Like b) :
  a.Kin b
  := ⟨h.chart, h.status.symm.trans, h.state, h.draining, h.queue⟩

/-- An interpreter that has something to do was started. -/
theorem Orderly.started (h : a.Orderly n ds) (hds : ds ≠ []) :
  a.status ≠ .notStarted
  := fun hstatus => hds (h.unstarted hstatus).1

/-- What has no part in the order may change, and unmarked envelopes may come in. -/
theorem Orderly.kin (h : a.Orderly n ds) (hkin : a.Kin b) :
  b.Orderly n ds
  := by
  obtain ⟨es, hes, hunmarked⟩ := hkin.queue
  have hbacklog : b.backlog ds = a.backlog ds ++ es := by
    rw [backlog, backlog, hes, List.append_assoc]
  constructor
  case bracketed =>
    rw [hkin.chart]
    exact h.bracketed
  case stage =>
    rw [hkin.state]
    exact h.stage
  case draining => exact hkin.draining.trans h.draining
  case unstarted =>
    intro hstatus
    obtain ⟨hds, hstate, hqueue⟩ := h.unstarted (hkin.status hstatus)
    rw [hes]
    exact ⟨hds, hkin.state.trans hstate, List.forall_mem_append.mpr ⟨hqueue, hunmarked⟩⟩
  case unmarked =>
    intro e he
    rw [hbacklog] at he
    cases hfirst : a.backlog ds with
    | nil =>
      rw [hfirst] at he
      exact hunmarked e (List.mem_of_mem_tail he)
    | cons x xs =>
      have htail := h.unmarked
      rw [hfirst] at he htail
      exact List.forall_mem_append.mpr ⟨htail, hunmarked⟩ e he
  case marked =>
    intro e he hstart
    rw [hbacklog] at he
    rw [hkin.state]
    rcases List.mem_append.mp he with he | he
    · exact h.marked e he hstart
    · exact absurd hstart (hunmarked e he)
  case sound =>
    intro snapshot hsnapshot
    rw [hkin.chart]
    exact h.sound snapshot (hkin.state.symm.trans hsnapshot)

/-- The duties may go on to the next stage. -/
theorem Orderly.advance (h : a.Orderly n ds) (hds : ds ≠ []) (hstage : Stage n a.state es)
    (hes : es ≠ []) (hbacklog : (a.backlog es).Sublist (a.backlog ds)) :
  a.Orderly n es
  := by
  constructor
  case bracketed => exact h.bracketed
  case stage => exact hstage
  case draining =>
    rw [h.draining, List.isEmpty_eq_false_iff.mpr hds, List.isEmpty_eq_false_iff.mpr hes]
  case unstarted => exact fun hstatus => absurd hstatus (h.started hds)
  case unmarked => exact fun e he => h.unmarked e (hbacklog.tail.subset he)
  case marked => exact fun e he => h.marked e (hbacklog.subset he)
  case sound => exact h.sound

/-- The duties go on past the first one. -/
theorem Orderly.next (h : a.Orderly n (w :: ds)) (hstage : Stage n a.state ds) (hds : ds ≠ []) :
  a.Orderly n ds
  := by
  apply h.advance (List.cons_ne_nil w ds) hstage hds
  rw [backlog_cons]
  exact List.sublist_append_right _ _

/-- A new snapshot is stored, when no boot marker is left. -/
theorem Orderly.store (h : a.Orderly n ds) (hds : ds ≠ [])
    (hunmarked : ∀ e ∈ a.backlog [.pump n], e.origin ≠ .start)
    (hsound : Collection.Sound a.machine.chart snapshot.actions) :
  Orderly n { a with state := some snapshot } (Session.committed n snapshot ++ [.pump n])
  := by
  have hbacklog : backlog { a with state := some snapshot }
      (Session.committed n snapshot ++ [.pump n]) = a.backlog [.pump n] :=
    backlog_committed _ snapshot _
  constructor
  case bracketed => exact h.bracketed
  case stage => exact .performing (performing_committed snapshot)
  case draining =>
    change a.mailbox.draining = _
    rw [h.draining, List.isEmpty_eq_false_iff.mpr hds, List.isEmpty_eq_false_iff.mpr]
    exact List.append_ne_nil_of_right_ne_nil _ (List.cons_ne_nil _ _)
  case unstarted => exact fun hstatus => absurd hstatus (h.started hds)
  case unmarked =>
    rw [hbacklog]
    exact fun e he => hunmarked e (List.mem_of_mem_tail he)
  case marked =>
    rw [hbacklog]
    exact fun e he hstart => absurd hstart (hunmarked e he)
  case sound =>
    intro s hs
    cases hs
    exact hsound

/-- An interpreter that has done nothing yet. -/
theorem Unstarted.orderly (h : a.Unstarted) :
  a.Orderly n []
  := by
  obtain ⟨document, hdocument⟩ := h.chart
  have hbacklog : a.backlog [] = [] := by
    rw [backlog, h.mailbox]
    rfl
  constructor
  case bracketed => exact Chart.bracketed_of_ofDocument hdocument
  case stage => exact .resting
  case draining =>
    rw [h.mailbox]
    rfl
  case unstarted =>
    intro _
    rw [h.mailbox]
    exact ⟨rfl, h.state, List.forall_mem_nil _⟩
  case unmarked =>
    rw [hbacklog]
    exact List.forall_mem_nil _
  case marked =>
    rw [hbacklog]
    exact fun e he => absurd he List.not_mem_nil
  case sound =>
    intro snapshot hsnapshot
    rw [h.state] at hsnapshot
    cases hsnapshot

/-! ### Turns -/

theorem kin_of_services (a : Actor) (services : List (String × Service)) :
  a.Kin { a with services }
  := ⟨rfl, fun h => h, rfl, rfl, [], (List.append_nil _).symm, List.forall_mem_nil _⟩

theorem kin_admitting (a : Actor) (e : Envelope) :
  a.Kin (a.admitting e)
  := by
  obtain ⟨services, -, heq⟩ := a.exists_admitting e
  rw [heq]
  exact kin_of_services a services

theorem kin_of_generation (a : Actor) (generation : Nat) :
  a.Kin { a with generation }
  := ⟨rfl, fun h => h, rfl, rfl, [], (List.append_nil _).symm, List.forall_mem_nil _⟩

theorem kin_stopped (a : Actor) :
  a.Kin { a with status := .stopped, services := [] }
  := ⟨rfl, nofun, rfl, rfl, [], (List.append_nil _).symm, List.forall_mem_nil _⟩

/-- A running interpreter that has nothing to do may begin to drain its mailbox. -/
theorem Orderly.claim (h : a.Orderly n ds) (hrunning : a.status = .running)
    (hfree : a.mailbox.draining = false) :
  a.claimed.Orderly n (.pump n :: ds)
  := by
  have hnil : ds = [] := by
    have hdraining := h.draining
    rw [hfree] at hdraining
    simpa using hdraining
  subst hnil
  refine ⟨h.bracketed, .waiting, rfl, ?_, h.unmarked, h.marked, h.sound⟩
  exact fun hstatus => nomatch hstatus.symm.trans hrunning

/-- A new interpreter gets its boot marker, which it is to take first. -/
theorem Orderly.start (h : a.Orderly n ds) (hstatus : a.status = .notStarted) :
  Orderly n
    { a with status := .running, mailbox := ⟨⟨.init, .start⟩ :: a.mailbox.queue, true⟩ }
    (if a.mailbox.draining then ds else .pump n :: ds)
  := by
  obtain ⟨rfl, hstate, hqueue⟩ := h.unstarted hstatus
  have hfree : ¬ a.mailbox.draining = true := by
    rw [h.draining]
    exact Bool.false_ne_true
  rw [if_neg hfree]
  exact ⟨h.bracketed, .waiting, rfl, nofun, hqueue, fun _ _ _ => hstate, h.sound⟩

/-- The envelopes in the mailbox may be given up. -/
theorem Orderly.clear (h : a.Orderly n ds) :
  Orderly n { a with mailbox := a.mailbox.clear } ds
  := by
  have hsublist : (backlog { a with mailbox := a.mailbox.clear } ds).Sublist (a.backlog ds) :=
    List.Sublist.append_left (List.nil_sublist _) _
  refine ⟨h.bracketed, h.stage, h.draining, ?_, ?_, ?_, h.sound⟩
  · intro hstatus
    obtain ⟨hds, hstate, -⟩ := h.unstarted hstatus
    exact ⟨hds, hstate, List.forall_mem_nil _⟩
  · exact fun e he => h.unmarked e (hsublist.tail.subset he)
  · exact fun e he => h.marked e (hsublist.subset he)

/-- An interpreter that finds its mailbox empty has nothing to do any more. -/
theorem Orderly.rest (h : a.Orderly n (.pump n :: ds)) :
  Orderly n { a with mailbox := a.mailbox.release } ds
  := by
  have hnil := h.stage.of_pump
  subst hnil
  refine ⟨h.bracketed, .resting, rfl, ?_, h.unmarked, h.marked, h.sound⟩
  exact fun hstatus => absurd hstatus (h.started (List.cons_ne_nil _ _))

/-- The first envelope of the mailbox is taken. -/
theorem Orderly.take {queue : List Envelope} (h : a.Orderly n (.pump n :: ds))
    (hqueue : a.mailbox.queue = e :: queue) :
  Orderly n { a with mailbox := { a.mailbox with queue } } (.handle n e :: .pump n :: ds)
  := by
  have hnil := h.stage.of_pump
  subst hnil
  have hbacklog : a.backlog [.pump n] = e :: queue := by
    rw [backlog, hqueue]
    rfl
  have hunmarked := h.unmarked
  have hmarked := h.marked
  rw [hbacklog] at hunmarked hmarked
  refine ⟨h.bracketed, .handling, h.draining, ?_, hunmarked, hmarked, h.sound⟩
  exact fun hstatus => absurd hstatus (h.started (List.cons_ne_nil _ _))

/-- The work on an envelope goes on with another one. -/
theorem Orderly.proceed {x : Work} (h : a.Orderly n [w, .pump n])
    (hstage : Stage n a.state [x, .pump n]) (hx : x.envelope? = none) :
  a.Orderly n [x, .pump n]
  := by
  apply h.advance (List.cons_ne_nil _ _) hstage (List.cons_ne_nil _ _)
  rw [backlog_cons, backlog_cons, hx]
  exact List.sublist_append_right _ _

/-- After a duty the interpreter goes on from its snapshot. -/
theorem Orderly.performing (h : a.Orderly n (w :: ds)) (hstate : a.state = some snapshot)
    (hds : Performing n snapshot ds) :
  a.Orderly n ds
  := by
  apply h.next _ hds.ne_nil
  rw [hstate]
  exact .performing hds

/-- A duty that comes to nothing is followed by the next one. -/
theorem Orderly.of_idles (h : a.Orderly n (w :: ds)) (hidle : a.Idles n w) :
  a.Orderly n ds
  := by
  have hnext : ds = [.pump n] → a.Orderly n ds := by
    rintro rfl
    exact h.next .waiting (List.cons_ne_nil _ _)
  cases hidle with
  | handle => exact hnext h.stage.of_handle
  | macrostep => exact hnext h.stage.of_macrostep
  | react => exact hnext h.stage.of_react.2
  | perform =>
    obtain ⟨hstate, hperforming⟩ := h.stage.of_perform
    exact h.performing hstate hperforming
  | invoke =>
    obtain ⟨hstate, hstarting, -⟩ := h.stage.of_invoke
    exact h.performing hstate (.starting hstarting)
  | publish => exact hnext h.stage.of_publish
  | recordFault => exact hnext h.stage.of_recordFault
  | confirmStart =>
    obtain ⟨snapshot, hstate, hstarting⟩ := h.stage.of_confirmStart
    exact h.performing hstate (.starting hstarting)

/-- A new snapshot takes the place of the one before, after the boot marker was taken. -/
theorem Orderly.move {event : Event} {next : Snapshot}
    (h : a.Orderly n (.react n snapshot event :: ds))
    (hnext : a.machine.transition snapshot event = .ok next) :
  Orderly n { a with state := some next } (Session.committed n next ++ ds)
  := by
  obtain ⟨hstate, hnil⟩ := h.stage.of_react
  subst hnil
  have hunmarked : ∀ e ∈ a.backlog [.pump n], e.origin ≠ .start := by
    intro e he hstart
    rw [h.marked e he hstart] at hstate
    cases hstate
  exact h.store (List.cons_ne_nil _ _) hunmarked (Machine.sound_transition hnext)

/-- A service that was issued is registered next. -/
theorem Orderly.issue {action : ResolvedAction} {later : List ResolvedAction} {service : Service}
    {ws : List Work} (h : a.Orderly n (.invoke n snapshot action later :: ds))
    (hissued : Issued n service ws) :
  a.Orderly n (ws ++ ds)
  := by
  obtain ⟨hstate, hstarting, -⟩ := h.stage.of_invoke
  have hstage : Stage n a.state (ws ++ ds) := by
    rw [hstate]
    cases hissued with
    | plain hbacking => exact .registering hbacking hstarting
    | machine hbacking => exact .registeringMachine hbacking hstarting
  have hbacklog : a.backlog (ws ++ ds) = a.backlog ds := by
    cases hissued <;> rfl
  apply h.advance (List.cons_ne_nil _ _) hstage
  · exact List.append_ne_nil_of_right_ne_nil _ hstarting.ne_nil
  · rw [hbacklog]
    exact List.Sublist.refl _

/-- After a registration the start of an invoked interpreter may have to be confirmed. -/
theorem Orderly.register {service : Service} (h : a.Orderly n (.register n service :: ds)) :
  a.Orderly n ds
  := by
  obtain ⟨snapshot, hstate, hstarting | ⟨child, rest, rfl, -, hstarting⟩⟩ := h.stage.of_register
  · exact h.performing hstate (.starting hstarting)
  · apply h.next _ (List.cons_ne_nil _ _)
    rw [hstate]
    exact .confirming hstarting

/-- An interpreter stays in order, whatever is done. -/
theorem Orderly.turn (h : a.Orderly n ds) (hturn : Turn n w a ds b es) :
  b.Orderly n es
  := by
  cases hturn with
  | calm hduty hlike => exact h.kin hlike.kin
  | wake hduty hrunning hfree hlike =>
    exact (h.kin hlike.kin).claim (hlike.status.trans hrunning) (hlike.draining.trans hfree)
  | start hstatus => exact h.start hstatus
  | stop hstatus hlike => exact (h.kin (kin_stopped a)).kin hlike.kin
  | release hlike => exact h.clear.kin hlike.kin
  | rest hqueue => exact h.rest
  | take hqueue => exact h.take hqueue
  | idle hidle hlike => exact (h.of_idles hidle).kin hlike.kin
  | boot hrunning hstart hstarts hlike =>
    obtain rfl := h.stage.of_handle
    have hstored := h.store (List.cons_ne_nil _ _) h.unmarked hstarts.sound
    exact hstored.kin hlike.kin
  | unbooted hrunning hstart hlike =>
    obtain rfl := h.stage.of_handle
    exact (h.proceed .failing rfl).kin hlike.kin
  | @accept _ _ ds e hrunning hstart hlive hlike =>
    obtain rfl := h.stage.of_handle
    have hforwarding : a.Orderly n [.macrostep n e.event e.origin, .pump n] :=
      h.proceed .forwarding rfl
    exact (hforwarding.kin (kin_admitting a e)).kin hlike.kin
  | @forward _ ds snapshot event origin hstate =>
    obtain rfl := h.stage.of_macrostep
    have hstage : Stage n a.state [.react n snapshot event, .pump n] := by
      rw [hstate]
      exact .reacting
    exact h.proceed hstage rfl
  | move hnext => exact h.move hnext
  | remove hrunning hduty hlookup =>
    obtain ⟨hstate, hperforming⟩ := h.stage.of_perform
    exact (h.performing hstate hperforming).kin (kin_of_services a _)
  | refuse hrunning hduty hlike =>
    obtain ⟨hstate, hstarting, -⟩ := h.stage.of_invoke
    have hrest := h.performing hstate (.starting hstarting)
    exact (hrest.kin (kin_of_generation a _)).kin hlike.kin
  | issue hrunning hduty hactive hid hgeneration hissued hlike =>
    exact ((h.issue hissued).kin (kin_of_generation a _)).kin hlike.kin
  | register => exact h.register.kin (kin_of_services a _)
  | @retract _ _ ds child id generation hlike =>
    obtain ⟨services, -, heq⟩ := a.exists_without id generation
    rw [heq] at hlike
    exact ((h.of_idles .confirmStart).kin (kin_of_services a services)).kin hlike.kin

end Actor

namespace Session

variable {s s₀ : Session} {ms xs ys : List Moment} {m : Moment}

/-- All along a course every interpreter is in order. -/
theorem Course.orderly (h₀ : s₀.Fresh) (h : Course s₀ ms s) (ha : s.actor? n = some a) :
  a.Orderly n (s.duties n)
  := by
  apply (h.induction_view (P := fun _ a ds => a.Orderly n ds) _ _ _ h₀).2 a ha
  · exact fun _ a _ hunstarted => hunstarted.orderly
  · exact fun _ a b ds horderly hlike => horderly.kin hlike.kin
  · exact fun _ _ _ _ _ _ _ horderly _ _ hturn => Actor.Orderly.turn horderly hturn

/-! ### Status -/

/-- An interpreter that does a duty was started. -/
theorem Course.started_of_duty (h₀ : s₀.Fresh) (h : Course s₀ ms s) (hm : s.Does m)
    (ha : m.before.actor? n = some a) (hduty : m.work.duty? = some n) :
  a.status ≠ .notStarted
  := by
  apply (h.orderly h₀ ((hm.actor? n).symm.trans ha)).started
  rw [hm.duties_eq_cons rfl hduty]
  exact List.cons_ne_nil _ _

theorem Course.stopped_after (h₀ : s₀.Fresh) (h : Course s₀ (xs ++ m :: ys) s)
    (hb : m.after.actor? n = some b) (hstopped : b.status = .stopped) (ha : s.actor? n = some a) :
  a.status = .stopped
  := h.induction_since (P := fun _ a _ => a.status = .stopped)
    (fun _ _ _ _ hstopped hlike => hlike.status.trans hstopped)
    (fun _ _ _ _ _ _ _ hstopped _ _ hturn => hturn.stopped hstopped) h₀ hb hstopped ha

/-- An interpreter that is running was so at every moment since it was started. -/
theorem Course.running_at (h₀ : s₀.Fresh) (h : Course s₀ (xs ++ m :: ys) s)
    (ha : m.before.actor? n = some a) (hstarted : a.status ≠ .notStarted)
    (hb : s.actor? n = some b) (hrunning : b.status = .running) :
  a.status = .running
  := by
  obtain ⟨t, hcourse, hdoes, -⟩ := h.split
  obtain ⟨c, hc, hturn⟩ := hcourse.exists_turn h₀ hdoes ha
  apply Status.eq_running hstarted
  intro hstopped
  rw [h.stopped_after h₀ hc (hturn.stopped hstopped) hb] at hrunning
  cases hrunning

end Session

end Statechart
