import Statechart.Proofs.Session.Steady

/-!
# What only some works touch

The clock, the tasks, and the delayed sends of an interpreter change with a few works only: a
delayed send is armed and cancelled by an action, it is taken when its timer is handled, and all are
cancelled when the interpreter is stopped.  All other works leave them as they are, and leave every
interpreter its place, its machine and the note why it failed to start (`lasts_carryOut`).
-/

namespace Statechart

/-- Whether a work leaves the clock, the tasks and the delayed sends as they are. -/
def Work.isLasting : Work → Bool
  | .handle .. => false
  | .perform .. => false
  | .invoke .. => false
  | .stop _ => false
  | .recordFault .. => false
  | .confirmStart .. => false
  | .stopService _ => false
  | .operate .. => false
  | .advance _ => false
  | .settle => false
  | _ => true

/-- Whether two interpreters agree in what few works touch. -/
structure Actor.Lasts (a b : Actor) : Prop where
  link : b.link = a.link
  machine : b.machine = a.machine
  settings : b.settings = a.settings
  resume : b.resume = a.resume
  startFault : b.startFault = a.startFault
  timers : b.timers = a.timers
  timerGeneration : b.timerGeneration = a.timerGeneration

namespace Actor

variable {a b c : Actor}

theorem Lasts.of_eq
    (h : (b.link, b.machine, b.settings, b.resume, b.startFault, b.timers, b.timerGeneration) =
      (a.link, a.machine, a.settings, a.resume, a.startFault, a.timers, a.timerGeneration)) :
  a.Lasts b
  := by
  simp only [Prod.mk.injEq] at h
  obtain ⟨hlink, hmachine, hsettings, hresume, hfault, htimers, hgeneration⟩ := h
  exact ⟨hlink, hmachine, hsettings, hresume, hfault, htimers, hgeneration⟩

theorem Lasts.refl (a : Actor) :
  a.Lasts a
  := .of_eq rfl

theorem Lasts.trans (h : a.Lasts b) (h' : b.Lasts c) :
  a.Lasts c
  := by
  constructor
  case link => exact h'.link.trans h.link
  case machine => exact h'.machine.trans h.machine
  case settings => exact h'.settings.trans h.settings
  case resume => exact h'.resume.trans h.resume
  case startFault => exact h'.startFault.trans h.startFault
  case timers => exact h'.timers.trans h.timers
  case timerGeneration => exact h'.timerGeneration.trans h.timerGeneration

/-- The interpreter without a delayed send. -/
def disarm (a : Actor) (id : SendId) : Actor :=
  { a with timers := Association.erase id a.timers }

end Actor

namespace Session

/-- Whether the clock, the tasks and the number of interpreters stay as they are, and every
interpreter keeps what few works touch. -/
structure Lasts (s t : Session) : Prop where
  clock : t.clock = s.clock
  jobs : t.jobs = s.jobs
  hasTimers : t.hasTimers = s.hasTimers
  length : t.actors.length = s.actors.length
  actor : ∀ n a, s.actor? n = some a → ∃ b, t.actor? n = some b ∧ a.Lasts b

variable {s t u : Session} {n : Nat} {w : Work} {a b : Actor}

theorem Lasts.of_eq (hclock : t.clock = s.clock) (hjobs : t.jobs = s.jobs)
    (htimers : t.hasTimers = s.hasTimers) (hactors : t.actors = s.actors) :
  Lasts s t
  := by
  refine ⟨hclock, hjobs, htimers, congrArg List.length hactors, ?_⟩
  intro n a ha
  refine ⟨a, ?_, .refl a⟩
  rw [actor?, hactors]
  exact ha

theorem Lasts.refl (s : Session) :
  Lasts s s
  := .of_eq rfl rfl rfl rfl

theorem Lasts.trans (h : Lasts s t) (h' : Lasts t u) :
  Lasts s u
  := by
  constructor
  case clock => exact h'.clock.trans h.clock
  case jobs => exact h'.jobs.trans h.jobs
  case hasTimers => exact h'.hasTimers.trans h.hasTimers
  case length => exact h'.length.trans h.length
  case actor =>
    intro n a ha
    obtain ⟨b, hb, hlasts⟩ := h.actor n a ha
    obtain ⟨c, hc, hlasts'⟩ := h'.actor n b hb
    exact ⟨c, hc, hlasts.trans hlasts'⟩

theorem Lasts.modify {f : Actor → Actor} (h : Lasts s t) (n : Nat)
    (hf : ∀ a : Actor, a.Lasts (f a)) :
  Lasts s (t.modify n f)
  := by
  refine h.trans ⟨rfl, rfl, rfl, List.length_modify .., ?_⟩
  intro k a ha
  rw [actor?_modify, ha]
  split
  · exact ⟨f a, rfl, hf a⟩
  · exact ⟨a, rfl, .refl a⟩

theorem Lasts.plan (h : Lasts s t) (ws : List Work) :
  Lasts s (t.plan ws)
  := h.trans (.of_eq rfl rfl rfl rfl)

theorem Lasts.observe (h : Lasts s t) (o : Observation) :
  Lasts s (t.observe o)
  := h.trans (.of_eq rfl rfl rfl rfl)

theorem Lasts.diagnose (h : Lasts s t) (d : Diagnostic) :
  Lasts s (t.diagnose d)
  := h.observe _

/-- An interpreter that is there was there before. -/
theorem Lasts.exists_before (h : Lasts s t) (hb : t.actor? n = some b) :
  ∃ a, s.actor? n = some a ∧ a.Lasts b
  := by
  obtain ⟨hn, -⟩ := List.getElem?_eq_some_iff.mp hb
  rw [h.length] at hn
  have ha : s.actor? n = some s.actors[n] := List.getElem?_eq_getElem hn
  obtain ⟨b', hb', hlasts⟩ := h.actor n _ ha
  rw [hb, Option.some.injEq] at hb'
  subst hb'
  exact ⟨_, ha, hlasts⟩

/-! ### Mailboxes and services -/

theorem lasts_queue (s : Session) (n : Nat) (e : Envelope) :
  Lasts s (s.queue n e)
  := (Lasts.refl s).modify n (fun _ => .of_eq rfl)

theorem lasts_drain (s : Session) (n : Nat) :
  Lasts s (s.drain n)
  := by
  rw [drain]
  split
  · exact .refl s
  · apply Lasts.plan
    exact (Lasts.refl s).modify n (fun _ => .of_eq rfl)

theorem lasts_enqueue (s : Session) (n : Nat) (e : Envelope) :
  Lasts s (s.enqueue n e)
  := by
  rw [enqueue]
  split
  · exact (lasts_queue s n e).trans (lasts_drain _ n)
  · exact .refl s

theorem lasts_post (s : Session) (n : Nat) (e : Envelope) :
  Lasts s (s.post n e)
  := by
  rw [post]
  split
  · exact lasts_enqueue s n e
  · exact .refl s

theorem lasts_send (s : Session) (n : Nat) (event : Event) :
  Lasts s (s.send n event)
  := by
  rw [send]
  split
  · exact .refl s
  · split
    · exact lasts_enqueue s n _
    · split
      · exact lasts_queue s n _
      · exact (Lasts.refl s).diagnose _
    · exact (Lasts.refl s).diagnose _

theorem lasts_start (s : Session) (n : Nat) :
  Lasts s (s.start n)
  := by
  rw [start]
  split
  · exact (Lasts.refl s).diagnose _
  · refine Lasts.trans ?_ (lasts_drain _ n)
    exact (Lasts.refl s).modify n (fun _ => .of_eq rfl)

theorem lasts_deliver (s : Session) (service : Service) (event : Event) :
  Lasts s (s.deliver service event)
  := by
  rw [deliver]
  split
  · exact lasts_send s _ event
  · exact .refl s
  · split
    · exact .refl s
    · split
      · exact ((Lasts.refl s).observe _).plan _
      · exact .refl s

theorem lasts_register (s : Session) (n : Nat) (service : Service) :
  Lasts s (s.register n service)
  := by
  apply Lasts.plan
  exact (Lasts.refl s).modify n (fun _ => .of_eq rfl)

theorem lasts_removeGeneration (s : Session) (n : Nat) (id : String) (generation : Nat) :
  Lasts s (s.removeGeneration n id generation)
  := by
  apply (Lasts.refl s).modify n
  intro a
  obtain ⟨services, -, heq⟩ := a.exists_without id generation
  rw [Actor.without] at heq
  rw [heq]
  exact .of_eq rfl

theorem lasts_route (s : Session) (n : Nat) (destination : Destination) (event : Event) :
  Lasts s (s.route n destination event)
  := by
  cases destination with
  | myself => exact lasts_queue s n _
  | parent =>
    rw [route]
    split
    · exact (Lasts.refl s).plan _
    · exact (Lasts.refl s).diagnose _
  | child id =>
    rw [route]
    split
    · exact (Lasts.refl s).plan _
    · exact (Lasts.refl s).diagnose _

theorem lasts_log (s : Session) (n : Nat) (snapshot : Snapshot) (trigger : Event)
    (expression : Option Expression) (label : Option String) :
  Lasts s (s.log n snapshot trigger expression label)
  := by
  cases expression with
  | none => exact (Lasts.refl s).observe _
  | some e =>
    rw [log]
    split
    · exact (Lasts.refl s).observe _
    · exact .refl s

/-! ### Snapshots -/

theorem lasts_commit (s : Session) (n : Nat) (snapshot : Snapshot) :
  Lasts s (s.commit n snapshot)
  := by
  apply Lasts.plan
  exact (Lasts.refl s).modify n (fun _ => .of_eq rfl)

theorem lasts_fail (s : Session) (n : Nat) (fault : Fault) (ws : List Work) :
  Lasts s (s.fail n fault ws)
  := ((Lasts.refl s).diagnose _).plan _

theorem lasts_macrostep (s : Session) (n : Nat) (event : Event) (origin : Origin) :
  Lasts s (s.macrostep n event origin)
  := by
  rw [macrostep]
  split
  · exact .refl s
  · split
    · exact .refl s
    · exact (Lasts.refl s).plan _

theorem lasts_react (s : Session) (n : Nat) (snapshot : Snapshot) (event : Event) :
  Lasts s (s.react n snapshot event)
  := by
  rw [react]
  split
  · exact .refl s
  · split
    · exact lasts_commit s n _
    · exact lasts_fail s n _ _

theorem lasts_pump (s : Session) (n : Nat) :
  Lasts s (s.pump n)
  := by
  rw [pump]
  split
  · exact .refl s
  · split
    · exact (Lasts.refl s).modify n (fun _ => .of_eq rfl)
    · apply Lasts.plan
      exact (Lasts.refl s).modify n (fun _ => .of_eq rfl)

theorem lasts_foldl_observe {α : Type} (f : α → Observation) (xs : List α) (s : Session) :
  Lasts s (xs.foldl (fun s x => s.observe (f x)) s)
  := by
  induction xs generalizing s with
  | nil => exact .refl s
  | cons x xs ih => exact ((Lasts.refl s).observe (f x)).trans (ih _)

theorem lasts_publish (s : Session) (n : Nat) (snapshot : Snapshot) :
  Lasts s (s.publish n snapshot)
  := by
  rw [publish]
  split
  · exact .refl s
  · next a _ =>
    split
    · exact .refl s
    · have hshown := lasts_foldl_observe (fun l => .published l snapshot) a.listeners.toList s
      dsimp only
      split
      · exact hshown
      · apply Lasts.plan
        split
        · exact hshown.observe _
        · exact hshown

theorem lasts_release (s : Session) (n : Nat) :
  Lasts s (s.release n)
  := (Lasts.refl s).modify n (fun _ => .of_eq rfl)

theorem lasts_unsubscribe (s : Session) (listener : String) :
  Lasts s (s.unsubscribe listener)
  := by
  rw [unsubscribe]
  split
  · exact .refl s
  · next number _ =>
    have hremoved := (Lasts.refl s).modify (f := fun a =>
      { a with listeners := a.listeners.unsubscribe number }) root
      (fun _ => .of_eq rfl)
    exact hremoved.trans (.of_eq rfl rfl rfl rfl)

/-- Most works leave the clock, the tasks and the delayed sends as they are. -/
theorem lasts_carryOut (h : w.isLasting = true) :
  Lasts s (s.carryOut w)
  := by
  cases w with
  | start n => exact lasts_start s n
  | send n event => exact lasts_send s n event
  | post n e => exact lasts_post s n e
  | pump n => exact lasts_pump s n
  | macrostep n event origin => exact lasts_macrostep s n event origin
  | react n snapshot event => exact lasts_react s n snapshot event
  | publish n snapshot => exact lasts_publish s n snapshot
  | release n => exact lasts_release s n
  | register n service => exact lasts_register s n service
  | deliver service event => exact lasts_deliver s service event
  | noteSent k event =>
    rw [carryOut]
    split
    · exact .refl s
    · exact (Lasts.refl s).observe _
  | noteFailed k =>
    rw [carryOut]
    split
    · exact .refl s
    · exact (Lasts.refl s).observe _
  | unsubscribe listener => exact lasts_unsubscribe s listener
  | ring alarm =>
    cases alarm with
    | post n e => exact lasts_post s n e
    | repeated k millis event times => exact (Lasts.refl s).plan _
  | _ => cases h

/-! ### Works that touch the delayed sends -/

/-- An action leaves the delayed sends as they are, unless the interpreter is running and the action
cancels one of them or arms one. -/
theorem lasts_perform (s : Session) (n : Nat) (snapshot : Snapshot) (action : ResolvedAction) :
  Lasts s (s.perform n snapshot action) ∨ s.isRunning n = true ∧
    ((∃ id, action.duty = .cancel id ∧
        s.perform n snapshot action = s.cancelSend n (.named id)) ∨
      ∃ send delay, action.duty = .send send ∧ send.delay = some (delay + 1) ∧
        s.perform n snapshot action = s.armSend n send (delay + 1))
  := by
  rw [perform]
  split
  · exact Or.inl (.refl s)
  · next hrunning =>
    have hrunning : s.isRunning n = true := by simpa using hrunning
    split
    · exact Or.inl (.refl s)
    · exact Or.inl (((Lasts.refl s).observe _).plan _)
    · next send hduty =>
      rw [dispatch]
      split
      · next delay hdelay => exact Or.inr ⟨hrunning, Or.inr ⟨send, delay, hduty, hdelay, rfl⟩⟩
      · exact Or.inl (lasts_route s n _ _)
    · exact Or.inl (lasts_log s n _ _ _ _)
    · next id hduty => exact Or.inr ⟨hrunning, Or.inl ⟨id, hduty, rfl⟩⟩
    · left
      split
      · exact .refl s
      · apply Lasts.plan
        exact (Lasts.refl s).modify n (fun _ => .of_eq rfl)
    · exact Or.inl ((Lasts.refl s).diagnose _)

/-- An envelope leaves the delayed sends as they are, unless it comes from the timer of one of them;
a boot marker uses up what is to be resumed. -/
theorem lasts_handle (s : Session) (n : Nat) (e : Envelope) :
  Lasts s (s.handle n e) ∨ s.isRunning n = true ∧
    ((e.origin = .start ∧
        Lasts (s.modify n (fun a => { a with resume := none })) (s.handle n e)) ∨
      ∃ id generation a d, e.origin = .timer id generation ∧ s.actor? n = some a ∧
        a.timers.lookup id = some d ∧ d.generation = generation ∧
        Lasts (s.modify n (fun a => a.disarm id)) (s.handle n e))
  := by
  rw [handle]
  split
  · exact Or.inl (.refl s)
  · next hrunning =>
    have hrunning : s.isRunning n = true := by simpa using hrunning
    split
    · next hstart =>
      rw [boot]
      split
      · exact Or.inl (.refl s)
      · refine Or.inr ⟨hrunning, Or.inl ⟨hstart, ?_⟩⟩
        dsimp only
        split
        · exact lasts_commit _ n _
        · exact lasts_fail _ n _ _
    · exact Or.inl ((Lasts.refl s).plan _)
    · next id generation horigin =>
      left
      split
      · dsimp only
        split
        · exact (lasts_removeGeneration s n id generation).plan _
        · exact (Lasts.refl s).plan _
      · exact .refl s
    · next id generation horigin =>
      split
      · exact Or.inl (.refl s)
      · next d hlookup =>
        split
        · next hgeneration =>
          obtain ⟨a, ha, hlookup⟩ := Option.bind_eq_some_iff.mp hlookup
          refine Or.inr ⟨hrunning, Or.inr ⟨id, generation, a, d, horigin, ha, hlookup,
            hgeneration, ?_⟩⟩
          dsimp only
          split
          · exact (Lasts.refl _).plan _
          · exact lasts_route _ n _ _
        · exact Or.inl (.refl s)

/-- A delayed send that is cancelled goes, and its timer does not run any more. -/
theorem cancelSend_eq (ha : s.actor? n = some a) (id : SendId) :
  (a.timers.lookup id = none ∧ s.cancelSend n id = s) ∨
    ∃ d, a.timers.lookup id = some d ∧ s.cancelSend n id =
      { s.modify n (fun a => a.disarm id) with clock := s.clock.cancel d.timer }
  := by
  rw [cancelSend, ha, Option.bind_some]
  cases a.timers.lookup id with
  | none => exact Or.inl ⟨rfl, rfl⟩
  | some d => exact Or.inr ⟨d, rfl, rfl⟩

/-! ### Works that touch something else -/

theorem lasts_startCallback (s : Session) (n : Nat) (service : Backing → Service) (script : Script)
    (input : Json) (trigger : Event) :
  Lasts s (s.startCallback n service script input trigger)
  := by
  rw [startCallback]
  split
  · refine Lasts.trans ?_ (lasts_queue _ n _)
    exact .of_eq rfl rfl rfl rfl
  · apply Lasts.plan
    exact .of_eq rfl rfl rfl rfl

theorem lasts_confirmStart (s : Session) (n child : Nat) (id : String) (generation : Nat) :
  Lasts s (s.confirmStart n child id generation) ∨
    Lasts (s.modify child (fun a => { a with startFault := none }))
      (s.confirmStart n child id generation)
  := by
  rw [confirmStart]
  split
  · exact Or.inl (.refl s)
  · exact Or.inr ((lasts_removeGeneration _ n id generation).trans (lasts_queue _ n _))

theorem lasts_stopService (s : Session) (service : Service) :
  (Lasts s (s.stopService service) ∧ ∀ j, service.backing ≠ .task j) ∨
    ∃ j, service.backing = .task j ∧ s.stopService service =
      { s with jobs := s.jobs.modify j (fun job => { job with isOpen := false }) }
  := by
  rw [stopService]
  split
  · next hbacking => exact Or.inl ⟨(Lasts.refl s).plan _, by simp [hbacking]⟩
  · next j hbacking => exact Or.inr ⟨j, hbacking, rfl⟩
  · next k hbacking =>
    refine Or.inl ⟨?_, by simp [hbacking]⟩
    split
    · exact .refl s
    · dsimp only
      split
      · exact .of_eq rfl rfl rfl rfl
      · apply Lasts.plan
        exact .of_eq rfl rfl rfl rfl

/-- The passing of time changes the clock and the agenda only. -/
theorem exists_advance (s : Session) (target : Nat) :
  ∃ clock ws, s.advance target = Session.plan { s with clock } ws
  := by
  rw [advance]
  split
  · exact ⟨s.clock.arrive target, [], rfl⟩
  · next timer clock _ =>
    dsimp only
    split
    · exact ⟨clock, _, rfl⟩
    · exact ⟨clock, _, rfl⟩

/-- A task whose result is delivered is closed. -/
theorem settle_eq (s : Session) :
  s.settle = s ∨ ∃ j ws, s.settle =
    Session.plan { s with jobs := s.jobs.modify j (fun job => { job with isOpen := false }) } ws
  := by
  rw [settle]
  dsimp only
  split
  · exact Or.inl rfl
  · exact Or.inr ⟨_, _, rfl⟩

theorem lasts_operate (s : Session) (k : Nat) (operation : Operation) :
  Lasts s (s.operate k operation) ∨ ∃ delay alarm,
    s.operate k operation = { s with clock := s.clock.schedule delay alarm }
  := by
  rw [operate]
  split
  · exact Or.inl (.refl s)
  · split
    · left
      split
      · exact (Lasts.refl s).observe _
      · exact (Lasts.refl s).plan _
    · left
      split
      · exact (Lasts.refl s).observe _
      · exact (Lasts.refl s).plan _
    · split
      · exact Or.inl (.refl s)
      · exact Or.inr ⟨_, _, rfl⟩

/-- Whether moreover tasks may come, and interpreters that have done nothing yet. -/
structure Grows (s t : Session) : Prop where
  clock : t.clock = s.clock
  jobs : s.jobs <+: t.jobs
  actor : ∀ n a, s.actor? n = some a → ∃ b, t.actor? n = some b ∧ a.Lasts b
  born : ∀ n b, s.actor? n = none → t.actor? n = some b →
    b.resume = none ∧ b.startFault = none ∧ b.timers = []

theorem Lasts.grows (h : Lasts s t) :
  Grows s t
  := by
  constructor
  case clock => exact h.clock
  case jobs => simp only [h.jobs, List.prefix_refl]
  case actor => exact h.actor
  case born =>
    intro n b hnone hb
    obtain ⟨a, ha, -⟩ := h.exists_before hb
    rw [hnone] at ha
    cases ha

theorem Grows.trans (h : Grows s t) (h' : Lasts t u) :
  Grows s u
  := by
  constructor
  case clock => exact h'.clock.trans h.clock
  case jobs =>
    rw [h'.jobs]
    exact h.jobs
  case actor =>
    intro n a ha
    obtain ⟨b, hb, hlasts⟩ := h.actor n a ha
    obtain ⟨c, hc, hlasts'⟩ := h'.actor n b hb
    exact ⟨c, hc, hlasts.trans hlasts'⟩
  case born =>
    intro n c hnone hc
    obtain ⟨b, hb, hlasts⟩ := h'.exists_before hc
    obtain ⟨hresume, hfault, htimers⟩ := h.born n b hnone hb
    exact ⟨hlasts.resume.trans hresume, hlasts.startFault.trans hfault,
      hlasts.timers.trans htimers⟩

/-- An interpreter comes. -/
theorem Lasts.spawn (h : Lasts s t) (link : Link) (settings : Settings) (machine : Machine)
    (data : Option Json) :
  Grows s { t with actors := t.actors ++ [childActor link settings machine data] }
  := by
  constructor
  case clock => exact h.clock
  case jobs => simp only [h.jobs, List.prefix_refl]
  case actor =>
    intro n a ha
    obtain ⟨b, hb, hlasts⟩ := h.actor n a ha
    refine ⟨b, ?_, hlasts⟩
    exact (List.getElem?_append_left (List.getElem?_eq_some_iff.mp hb).1).trans hb
  case born =>
    intro n b hnone hb
    have hlength : t.actors.length ≤ n := by
      rw [h.length]
      exact List.getElem?_eq_none_iff.mp hnone
    change (t.actors ++ [_])[n]? = some b at hb
    rw [List.getElem?_append_right hlength] at hb
    obtain rfl := List.mem_singleton.mp (List.mem_of_getElem? hb)
    exact ⟨rfl, rfl, rfl⟩

/-- The start of an invocation makes an interpreter or a task at most. -/
theorem grows_invoke (s : Session) (n : Nat) (snapshot : Snapshot) (action : ResolvedAction)
    (later : List ResolvedAction) :
  Grows s (s.invoke n snapshot action later)
  := by
  rw [invoke]
  split
  · split
    · exact (Lasts.refl s).grows
    · rw [startService]
      split
      · next source a hsource ha =>
        have hissued : Lasts s (s.modify n (fun b => { b with generation := a.generation + 1 })) :=
          (Lasts.refl s).modify n (fun _ => .of_eq rfl)
        dsimp only
        split
        · apply (hissued.spawn _ a.settings _ _).trans
          apply Lasts.plan
          exact .refl _
        · rw [startTask]
          dsimp only
          split
          · exact (hissued.trans (lasts_queue _ n _)).grows
          · have hgrown := hissued.grows
            exact ⟨hgrown.clock, List.prefix_append _ _, hgrown.actor, hgrown.born⟩
        · exact (hissued.trans (lasts_startCallback _ n _ _ _ _)).grows
      · exact ((Lasts.refl s).diagnose _).grows
  · exact (Lasts.refl s).grows

/-! ### The end of an interpreter -/

theorem actor?_cancelSend (ha : s.actor? n = some a) (id : SendId) :
  (s.cancelSend n id).actor? n = some (a.disarm id)
  := by
  rcases cancelSend_eq ha id with ⟨hnone, heq⟩ | ⟨d, -, heq⟩
  · rw [heq, ha, Actor.disarm, Association.erase, List.filter_eq_self.mpr]
    intro t ht
    have hne := List.lookup_eq_none_iff.mp hnone t ht
    simpa using fun heq : t.1 = id => (bne_iff_ne.mp hne) heq.symm
  · rw [heq]
    change (s.modify n _).actor? n = _
    rw [actor?_modify_self, ha, Option.map_some]

theorem actor?_cancelSend_of_ne {k : Nat} (hk : n ≠ k) (s : Session) (id : SendId) :
  (s.cancelSend n id).actor? k = s.actor? k
  := by
  rw [cancelSend]
  split
  · rfl
  · change (s.modify n _).actor? k = _
    rw [actor?_modify, if_neg hk]

theorem jobs_cancelSend (s : Session) (n : Nat) (id : SendId) :
  (s.cancelSend n id).jobs = s.jobs
  := by
  rw [cancelSend]
  split <;> rfl

/-- A delayed send that is armed changes the delayed sends of its interpreter only. -/
theorem exists_armSend (ha : s.actor? n = some a) (send : Send) (delay : Nat) :
  ∃ b, (s.armSend n send delay).actor? n = some b ∧ Actor.Lasts a
    { b with timers := a.timers, timerGeneration := a.timerGeneration }
  := by
  rw [armSend, ha]
  have hcancelled := fun id => actor?_cancelSend (n := n)
    (s := s.modify n (fun b => { b with timerGeneration := a.timerGeneration + 1 }))
    (a := { a with timerGeneration := a.timerGeneration + 1 })
    (by rw [actor?_modify_self, ha]; rfl) id
  dsimp only
  split
  · rw [actor?_diagnose, hcancelled]
    exact ⟨_, rfl, .of_eq rfl⟩
  · change ∃ b, (Session.modify _ n _).actor? n = some b ∧ _
    rw [actor?_modify_self, hcancelled]
    exact ⟨_, rfl, .of_eq rfl⟩

theorem jobs_armSend (s : Session) (n : Nat) (send : Send) (delay : Nat) :
  (s.armSend n send delay).jobs = s.jobs
  := by
  rw [armSend]
  split
  · rfl
  · dsimp only
    split
    · exact jobs_cancelSend _ n _
    · exact jobs_cancelSend _ n _

theorem actor?_armSend_of_ne {k : Nat} (hk : n ≠ k) (s : Session) (send : Send) (delay : Nat) :
  (s.armSend n send delay).actor? k = s.actor? k
  := by
  rw [armSend]
  split
  · rfl
  · dsimp only
    split
    · rw [actor?_diagnose, actor?_cancelSend_of_ne hk, actor?_modify, if_neg hk]
    · change (Session.modify _ n _).actor? k = _
      rw [actor?_modify, if_neg hk, actor?_cancelSend_of_ne hk, actor?_modify, if_neg hk]

/-- Of the delayed sends those are left that are not among the cancelled ones. -/
theorem actor?_foldl_cancelSend (ha : s.actor? n = some a) (timers : List (SendId × DelayedSend)) :
  (timers.foldl (fun s t => s.cancelSend n t.1) s).actor? n =
    some { a with timers := a.timers.filter (fun t => timers.all (fun x => t.1 ≠ x.1)) }
  := by
  induction timers generalizing s a with
  | nil =>
    rw [List.foldl_nil, ha, List.filter_eq_self.mpr]
    exact fun t _ => rfl
  | cons x timers ih =>
    rw [List.foldl_cons, ih (actor?_cancelSend ha x.1), Actor.disarm]
    dsimp only
    rw [Association.erase, List.filter_filter]
    refine congrArg (fun timers => some { a with timers }) (List.filter_congr ?_)
    intro t _
    rw [List.all_cons, Bool.and_comm]

theorem foldl_cancelSend_of_ne {k : Nat} (hk : n ≠ k) (timers : List (SendId × DelayedSend))
    (s : Session) :
  (timers.foldl (fun s t => s.cancelSend n t.1) s).actor? k = s.actor? k
  := by
  induction timers generalizing s with
  | nil => rfl
  | cons x timers ih =>
    rw [List.foldl_cons, ih]
    exact actor?_cancelSend_of_ne hk s x.1

theorem jobs_foldl_cancelSend (timers : List (SendId × DelayedSend)) (s : Session) :
  (timers.foldl (fun s t => s.cancelSend n t.1) s).jobs = s.jobs
  := by
  induction timers generalizing s with
  | nil => rfl
  | cons x timers ih =>
    rw [List.foldl_cons, ih]
    exact jobs_cancelSend s n x.1

/-- An interpreter that is stopped loses its services and its delayed sends, and nothing else. -/
theorem actor?_stop (ha : s.actor? n = some a) (hstatus : a.status ≠ .stopped) :
  (s.stop n).actor? n = some { a with status := .stopped, services := [], timers := [] }
  := by
  rw [stop, ha]
  dsimp only
  rw [if_neg hstatus, actor?_plan, actor?_modify_self,
    actor?_foldl_cancelSend (a := { a with status := .stopped })
      (by rw [actor?_modify_self, ha]; rfl) a.timers, Option.map_some]
  have hnone : a.timers.filter (fun t => a.timers.all (fun x => t.1 ≠ x.1)) = [] := by
    rw [List.filter_eq_nil_iff]
    intro t ht hall
    have hself := List.all_eq_true.mp hall t ht
    exact of_decide_eq_true hself rfl
  dsimp only
  rw [hnone]

theorem agenda_foldl_cancelSend (timers : List (SendId × DelayedSend)) (s : Session) (n : Nat) :
  (timers.foldl (fun s t => s.cancelSend n t.1) s).agenda = s.agenda
  := by
  induction timers generalizing s with
  | nil => rfl
  | cons x timers ih =>
    rw [List.foldl_cons, ih, cancelSend]
    split <;> rfl

theorem agenda_stop (ha : s.actor? n = some a) (hstatus : a.status ≠ .stopped) :
  (s.stop n).agenda = a.services.map (fun e => .stopService e.2) ++ .release n :: s.agenda
  := by
  rw [stop, ha]
  dsimp only
  rw [if_neg hstatus, agenda_plan, List.append_assoc]
  refine congrArg (fun l => a.services.map (fun e => Work.stopService e.2) ++ .release n :: l) ?_
  exact agenda_foldl_cancelSend a.timers _ n

theorem actor?_stop_of_ne {k : Nat} (hk : n ≠ k) (s : Session) :
  (s.stop n).actor? k = s.actor? k
  := by
  rw [stop]
  split
  · rfl
  · split
    · rfl
    · rw [actor?_plan, actor?_modify, if_neg hk, foldl_cancelSend_of_ne hk, actor?_modify,
        if_neg hk]

theorem jobs_stop (s : Session) (n : Nat) :
  (s.stop n).jobs = s.jobs
  := by
  rw [stop]
  split
  · rfl
  · split
    · rfl
    · exact jobs_foldl_cancelSend _ _

end Session

/-! ### All works -/

/-- What a work does at most to an interpreter, apart from its services and its mailbox. -/
structure Actor.Ages (n : Nat) (w : Work) (a b : Actor) : Prop where
  link : b.link = a.link
  machine : b.machine = a.machine
  settings : b.settings = a.settings
  resume : b.resume = a.resume ∨ b.resume = none
  startFault : b.startFault = a.startFault ∨
    (∃ fault, w = .recordFault n fault ∧ b.startFault = some fault) ∨
    (∃ k id generation, w = .confirmStart k n id generation) ∧ b.startFault = none
  timers : a.status ≠ .running → b.timers.Sublist a.timers

namespace Actor

variable {a b c : Actor} {n : Nat} {w : Work}

theorem Lasts.ages (h : a.Lasts b) (n : Nat) (w : Work) :
  a.Ages n w b
  := by
  refine ⟨h.link, h.machine, h.settings, Or.inl h.resume, Or.inl h.startFault, fun _ => ?_⟩
  simp only [h.timers, List.Sublist.refl]

theorem Ages.trans (h : a.Ages n w b) (h' : b.Lasts c) :
  a.Ages n w c
  := by
  constructor
  case link => exact h'.link.trans h.link
  case machine => exact h'.machine.trans h.machine
  case settings => exact h'.settings.trans h.settings
  case resume =>
    rw [h'.resume]
    exact h.resume
  case startFault =>
    rw [h'.startFault]
    exact h.startFault
  case timers =>
    rw [h'.timers]
    exact h.timers

end Actor

namespace Session

variable {s t u : Session} {n k : Nat} {w : Work} {a b : Actor}

/-- What happens to an interpreter at one place and nowhere else. -/
theorem exists_ages_modify {f : Actor → Actor} (ha : s.actor? n = some a)
    (hf : k = n → a.Ages n w (f a)) (h : Lasts (s.modify k f) t) :
  ∃ b, t.actor? n = some b ∧ a.Ages n w b
  := by
  by_cases hk : k = n
  · subst hk
    obtain ⟨b, hb, hlasts⟩ := h.actor k (f a) (by rw [actor?_modify_self, ha]; rfl)
    exact ⟨b, hb, (hf rfl).trans hlasts⟩
  · obtain ⟨b, hb, hlasts⟩ := h.actor n a (by rw [actor?_modify, if_neg hk, ha])
    exact ⟨b, hb, hlasts.ages n w⟩

theorem exists_ages_of_lasts (ha : s.actor? n = some a) (h : Lasts s t) :
  ∃ b, t.actor? n = some b ∧ a.Ages n w b
  := by
  obtain ⟨b, hb, hlasts⟩ := h.actor n a ha
  exact ⟨b, hb, hlasts.ages n w⟩

theorem exists_ages_of_same (ha : s.actor? n = some a) (h : t.actor? n = s.actor? n) :
  ∃ b, t.actor? n = some b ∧ a.Ages n w b
  := ⟨a, h.trans ha, (Actor.Lasts.refl a).ages n w⟩

/-- Only a running interpreter arms a delayed send. -/
theorem exists_ages_perform (k : Nat) (snapshot : Snapshot) (action : ResolvedAction)
    (ha : s.actor? n = some a) :
  ∃ b, (s.perform k snapshot action).actor? n = some b ∧ a.Ages n w b
  := by
  rcases lasts_perform s k snapshot action with
    h | ⟨hrunning, ⟨id, -, heq⟩ | ⟨send, delay, -, -, heq⟩⟩
  · exact exists_ages_of_lasts ha h
  · rw [heq]
    by_cases hk : k = n
    · subst hk
      exact ⟨_, actor?_cancelSend ha _,
        rfl, rfl, rfl, Or.inl rfl, Or.inl rfl, fun _ => List.filter_sublist⟩
    · exact exists_ages_of_same ha (actor?_cancelSend_of_ne hk s _)
  · rw [heq]
    by_cases hk : k = n
    · subst hk
      obtain ⟨b, hb, hlasts⟩ := exists_armSend ha send (delay + 1)
      refine ⟨b, hb, hlasts.link, hlasts.machine, hlasts.settings, Or.inl hlasts.resume,
        Or.inl hlasts.startFault, fun hstatus => ?_⟩
      exact absurd ((isRunning_iff ha).mp hrunning) hstatus
    · exact exists_ages_of_same ha (actor?_armSend_of_ne hk s send _)

/-- A stopped interpreter has no delayed sends. -/
theorem exists_ages_stop (k : Nat) (ha : s.actor? n = some a) :
  ∃ b, (s.stop k).actor? n = some b ∧ a.Ages n w b
  := by
  by_cases hk : k = n
  · subst hk
    by_cases hstatus : a.status = .stopped
    · apply exists_ages_of_same ha
      rw [stop, ha]
      dsimp only
      rw [if_pos hstatus, ha]
    · exact ⟨_, actor?_stop ha hstatus,
        rfl, rfl, rfl, Or.inl rfl, Or.inl rfl, fun _ => List.nil_sublist _⟩
  · exact exists_ages_of_same ha (actor?_stop_of_ne hk s)

/-- Whatever is done, an interpreter keeps its place and its machine. -/
theorem exists_ages (s : Session) (w : Work) (ha : s.actor? n = some a) :
  ∃ b, (s.carryOut w).actor? n = some b ∧ a.Ages n w b
  := by
  have hlasts : Lasts s (s.carryOut w) → ∃ b, (s.carryOut w).actor? n = some b ∧ a.Ages n w b :=
    exists_ages_of_lasts ha
  have hsame : (s.carryOut w).actor? n = s.actor? n →
      ∃ b, (s.carryOut w).actor? n = some b ∧ a.Ages n w b :=
    exists_ages_of_same ha
  cases w with
  | handle k e =>
    rcases lasts_handle s k e with h | ⟨-, ⟨-, h⟩ | ⟨id, -, -, -, -, -, -, -, h⟩⟩
    · exact hlasts h
    · exact exists_ages_modify ha
        (fun _ => ⟨rfl, rfl, rfl, Or.inr rfl, Or.inl rfl, fun _ => .refl _⟩) h
    · exact exists_ages_modify ha
        (fun _ => ⟨rfl, rfl, rfl, Or.inl rfl, Or.inl rfl, fun _ => List.filter_sublist⟩) h
  | perform k snapshot action => exact exists_ages_perform k snapshot action ha
  | invoke k snapshot action later =>
    obtain ⟨b, hb, h⟩ := (grows_invoke s k snapshot action later).actor n a ha
    exact ⟨b, hb, h.ages n _⟩
  | stop k => exact exists_ages_stop k ha
  | recordFault k fault =>
    refine exists_ages_modify ha (fun hk => ?_) (.refl _)
    subst hk
    exact ⟨rfl, rfl, rfl, Or.inl rfl, Or.inr (Or.inl ⟨fault, rfl, rfl⟩), fun _ => .refl _⟩
  | confirmStart k child id generation =>
    rcases lasts_confirmStart s k child id generation with h | h
    · exact hlasts h
    · refine exists_ages_modify ha (fun hk => ?_) h
      subst hk
      exact ⟨rfl, rfl, rfl, Or.inl rfl, Or.inr (Or.inr ⟨⟨k, id, generation, rfl⟩, rfl⟩),
        fun _ => .refl _⟩
  | stopService service =>
    rcases lasts_stopService s service with ⟨h, -⟩ | ⟨j, -, heq⟩
    · exact hlasts h
    · apply hsame
      rw [carryOut, heq]
      rfl
  | operate k operation =>
    rcases lasts_operate s k operation with h | ⟨delay, alarm, heq⟩
    · exact hlasts h
    · apply hsame
      rw [carryOut, heq]
      rfl
  | advance target =>
    obtain ⟨clock, ws, heq⟩ := exists_advance s target
    apply hsame
    rw [carryOut, heq]
    rfl
  | settle =>
    apply hsame
    rcases settle_eq s with heq | ⟨j, ws, heq⟩
    · rw [carryOut, heq]
    · rw [carryOut, heq]
      rfl
  | _ => exact hlasts (lasts_carryOut rfl)

theorem length_cancelSend (s : Session) (n : Nat) (id : SendId) :
  (s.cancelSend n id).actors.length = s.actors.length
  := by
  rw [cancelSend]
  split
  · rfl
  · exact List.length_modify ..

theorem length_foldl_cancelSend (timers : List (SendId × DelayedSend)) (s : Session) (n : Nat) :
  (timers.foldl (fun s t => s.cancelSend n t.1) s).actors.length = s.actors.length
  := by
  induction timers generalizing s with
  | nil => rfl
  | cons x timers ih =>
    rw [List.foldl_cons, ih]
    exact length_cancelSend s n x.1

theorem length_armSend (s : Session) (n : Nat) (send : Send) (delay : Nat) :
  (s.armSend n send delay).actors.length = s.actors.length
  := by
  rw [armSend]
  split
  · rfl
  · dsimp only
    split
    · exact (length_cancelSend _ n _).trans (List.length_modify ..)
    · exact (List.length_modify ..).trans ((length_cancelSend _ n _).trans (List.length_modify ..))

theorem length_stop (s : Session) (n : Nat) :
  (s.stop n).actors.length = s.actors.length
  := by
  rw [stop]
  split
  · rfl
  · split
    · rfl
    · exact (List.length_modify ..).trans
        ((length_foldl_cancelSend _ _ n).trans (List.length_modify ..))

/-- Only the start of an invocation makes interpreters. -/
theorem length_carryOut (hw : ∀ k snapshot action later, w ≠ .invoke k snapshot action later) :
  (s.carryOut w).actors.length = s.actors.length
  := by
  cases w with
  | handle k e =>
    rcases lasts_handle s k e with h | ⟨-, ⟨-, h⟩ | ⟨id, -, -, -, -, -, -, -, h⟩⟩
    · exact h.length
    · exact h.length.trans (List.length_modify ..)
    · exact h.length.trans (List.length_modify ..)
  | perform k snapshot action =>
    rcases lasts_perform s k snapshot action with
      h | ⟨-, ⟨id, -, heq⟩ | ⟨send, delay, -, -, heq⟩⟩
    · exact h.length
    · rw [carryOut, heq]
      exact length_cancelSend s k _
    · rw [carryOut, heq]
      exact length_armSend s k send _
  | invoke k snapshot action later => exact absurd rfl (hw k snapshot action later)
  | stop k => exact length_stop s k
  | recordFault k fault => exact List.length_modify ..
  | confirmStart k child id generation =>
    rcases lasts_confirmStart s k child id generation with h | h
    · exact h.length
    · exact h.length.trans (List.length_modify ..)
  | stopService service =>
    rcases lasts_stopService s service with ⟨h, -⟩ | ⟨j, -, heq⟩
    · exact h.length
    · rw [carryOut, heq]
  | operate k operation =>
    rcases lasts_operate s k operation with h | ⟨delay, alarm, heq⟩
    · exact h.length
    · rw [carryOut, heq]
  | advance target =>
    obtain ⟨clock, ws, heq⟩ := exists_advance s target
    rw [carryOut, heq]
    rfl
  | settle =>
    rcases settle_eq s with heq | ⟨j, ws, heq⟩
    · rw [carryOut, heq]
    · rw [carryOut, heq]
      rfl
  | _ => exact (lasts_carryOut rfl).length

/-- An interpreter that comes has nothing to resume, no fault and no delayed sends. -/
theorem newborn_carryOut (hnone : s.actor? n = none) (hb : (s.carryOut w).actor? n = some b) :
  b.resume = none ∧ b.startFault = none ∧ b.timers = []
  := by
  by_cases hw : ∀ k snapshot action later, w ≠ .invoke k snapshot action later
  · obtain ⟨hn, -⟩ := List.getElem?_eq_some_iff.mp hb
    rw [length_carryOut hw] at hn
    rw [actor?, List.getElem?_eq_getElem hn] at hnone
    cases hnone
  · push Not at hw
    obtain ⟨k, snapshot, action, later, rfl⟩ := hw
    exact (grows_invoke s k snapshot action later).born n b hnone hb

/-- When a task is closed, the closed ones stay closed. -/
theorem exists_job_modify {j : Nat} {job : Job} (hjob : s.jobs[j]? = some job) (i : Nat) :
  ∃ job', (s.jobs.modify i (fun job => { job with isOpen := false }))[j]? = some job' ∧
    (job.isOpen = false → job'.isOpen = false) ∧ (i = j → job'.isOpen = false)
  := by
  rw [List.getElem?_modify, hjob, Option.map_eq_map, Option.map_some]
  by_cases hi : i = j
  · rw [if_pos hi]
    exact ⟨_, rfl, fun _ => rfl, fun _ => rfl⟩
  · rw [if_neg hi]
    exact ⟨_, rfl, fun h => h, fun h => absurd h hi⟩

/-- Tasks stay, and those that are closed stay closed. -/
theorem exists_job (s : Session) (w : Work) {j : Nat} {job : Job} (hjob : s.jobs[j]? = some job) :
  ∃ job', (s.carryOut w).jobs[j]? = some job' ∧ (job.isOpen = false → job'.isOpen = false) ∧
    ∀ v : Service, w = .stopService v → v.backing = .task j → job'.isOpen = false
  := by
  have hsame : (∀ v, w ≠ .stopService v) → (s.carryOut w).jobs = s.jobs →
      ∃ job', (s.carryOut w).jobs[j]? = some job' ∧ (job.isOpen = false → job'.isOpen = false) ∧
        ∀ v : Service, w = .stopService v → v.backing = .task j → job'.isOpen = false := by
    intro hw hjobs
    rw [hjobs]
    exact ⟨job, hjob, fun h => h, fun v hv => absurd hv (hw v)⟩
  cases w with
  | handle k e =>
    rcases lasts_handle s k e with h | ⟨-, ⟨-, h⟩ | ⟨id, -, -, -, -, -, -, -, h⟩⟩
    · exact hsame (fun _ => Work.noConfusion) h.jobs
    · exact hsame (fun _ => Work.noConfusion) h.jobs
    · exact hsame (fun _ => Work.noConfusion) h.jobs
  | perform k snapshot action =>
    rcases lasts_perform s k snapshot action with
      h | ⟨-, ⟨id, -, heq⟩ | ⟨send, delay, -, -, heq⟩⟩
    · exact hsame (fun _ => Work.noConfusion) h.jobs
    · apply hsame (fun _ => Work.noConfusion)
      rw [carryOut, heq, jobs_cancelSend]
    · apply hsame (fun _ => Work.noConfusion)
      rw [carryOut, heq, jobs_armSend]
  | invoke k snapshot action later =>
    obtain ⟨js, hjs⟩ := (grows_invoke s k snapshot action later).jobs
    refine ⟨job, ?_, fun h => h, fun _ h => Work.noConfusion h⟩
    rw [carryOut, ← hjs, List.getElem?_append_left (List.getElem?_eq_some_iff.mp hjob).1]
    exact hjob
  | stop k => exact hsame (fun _ => Work.noConfusion) (jobs_stop s k)
  | recordFault k fault => exact hsame (fun _ => Work.noConfusion) rfl
  | confirmStart k child id generation =>
    rcases lasts_confirmStart s k child id generation with h | h
    · exact hsame (fun _ => Work.noConfusion) h.jobs
    · exact hsame (fun _ => Work.noConfusion) h.jobs
  | stopService v =>
    rcases lasts_stopService s v with ⟨h, hother⟩ | ⟨i, hbacking, heq⟩
    · rw [carryOut, h.jobs]
      refine ⟨job, hjob, fun h => h, ?_⟩
      rintro v' ⟨⟩ hbacking
      exact absurd hbacking (hother j)
    · obtain ⟨job', hjob', hclosed, hself⟩ := exists_job_modify hjob i
      rw [carryOut, heq]
      refine ⟨job', hjob', hclosed, ?_⟩
      rintro v' ⟨⟩ hbacking'
      exact hself (Backing.task.inj (hbacking.symm.trans hbacking'))
  | operate k operation =>
    rcases lasts_operate s k operation with h | ⟨delay, alarm, heq⟩
    · exact hsame (fun _ => Work.noConfusion) h.jobs
    · apply hsame (fun _ => Work.noConfusion)
      rw [carryOut, heq]
  | advance target =>
    obtain ⟨clock, ws, heq⟩ := exists_advance s target
    apply hsame (fun _ => Work.noConfusion)
    rw [carryOut, heq]
    rfl
  | settle =>
    rcases settle_eq s with heq | ⟨i, ws, heq⟩
    · apply hsame (fun _ => Work.noConfusion)
      rw [carryOut, heq]
    · obtain ⟨job', hjob', hclosed, -⟩ := exists_job_modify hjob i
      rw [carryOut, heq]
      exact ⟨job', hjob', hclosed, fun _ h => Work.noConfusion h⟩
  | _ => exact hsame (fun _ => Work.noConfusion) (lasts_carryOut rfl).jobs

end Session

end Statechart
