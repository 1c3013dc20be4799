import Mathlib.Tactic.Common
import Statechart.Session.Operations

/-!
# What a work leaves as it is

The duties of an interpreter are the works with which it handles an envelope; all other works
come from outside.  A work from outside leaves the status, the snapshot and the services of an
interpreter as they are, and at most adds to its mailbox (`Calm`), unless it is the start, the stop
or the release of that very interpreter, or wakes it for a first envelope (`outside_carryOut`).
-/

namespace Statechart

/-- The interpreter that a work handles an envelope for, or that a service is registered at. -/
def Work.duty? : Work → Option Nat
  | .pump n => some n
  | .handle n _ => some n
  | .macrostep n _ _ => some n
  | .react n _ _ => some n
  | .perform n _ _ => some n
  | .invoke n _ _ _ => some n
  | .publish n _ => some n
  | .recordFault n _ => some n
  | .confirmStart n _ _ _ => some n
  | .register n _ => some n
  | _ => none

/-- Whether an alarm posts no boot marker. -/
def Alarm.Unmarked : Alarm → Prop
  | .post _ e => e.origin ≠ .start
  | .repeated .. => True

/-- Whether a work posts no boot marker. -/
def Work.Unmarked : Work → Prop
  | .post _ e => e.origin ≠ .start
  | .ring alarm => alarm.Unmarked
  | _ => True

namespace Actor

/-- Whether an interpreter differs from another one at most in what does not concern its
services, and in envelopes that have come in since. -/
structure Like (a b : Actor) : Prop where
  chart : b.machine.chart = a.machine.chart
  status : b.status = a.status
  state : b.state = a.state
  services : b.services = a.services
  generation : b.generation = a.generation
  draining : b.mailbox.draining = a.mailbox.draining
  queue : ∃ es, b.mailbox.queue = a.mailbox.queue ++ es ∧ ∀ e ∈ es, e.origin ≠ .start

/-- The interpreter with its mailbox claimed. -/
def claimed (a : Actor) : Actor :=
  { a with mailbox := { a.mailbox with draining := true } }

/-- The interpreter without the live service of an id, if it has the given generation. -/
def without (a : Actor) (id : String) (generation : Nat) : Actor :=
  if a.isLive id generation then { a with services := Association.erase id a.services } else a

/-- Whether an interpreter was just made for a machine of a catalog. -/
structure Spawned (catalog : List (String × Source)) (a : Actor) : Prop where
  machine : ∃ src m, catalog.lookup src = some (.machine m) ∧ a.machine.chart = m.chart
  status : a.status = .notStarted
  state : a.state = none
  services : a.services = []
  generation : a.generation = 0
  mailbox : a.mailbox = {}

variable {a b c : Actor}

theorem Like.refl (a : Actor) :
  a.Like a
  := ⟨rfl, rfl, rfl, rfl, rfl, rfl, [], (List.append_nil _).symm, List.forall_mem_nil _⟩

/-- What does not concern services and mailboxes may change. -/
theorem Like.of_eq (h : (b.machine.chart, b.status, b.state, b.services, b.generation, b.mailbox) =
    (a.machine.chart, a.status, a.state, a.services, a.generation, a.mailbox)) :
  a.Like b
  := by
  simp only [Prod.mk.injEq] at h
  obtain ⟨hchart, hstatus, hstate, hservices, hgeneration, hmailbox⟩ := h
  refine ⟨hchart, hstatus, hstate, hservices, hgeneration, ?_, [], ?_, List.forall_mem_nil _⟩
  · rw [hmailbox]
  · rw [hmailbox, List.append_nil]

theorem Like.trans (h : a.Like b) (h' : b.Like c) :
  a.Like c
  := by
  obtain ⟨es, hes, hstart⟩ := h.queue
  obtain ⟨es', hes', hstart'⟩ := h'.queue
  constructor
  case chart => exact h'.chart.trans h.chart
  case status => exact h'.status.trans h.status
  case state => exact h'.state.trans h.state
  case services => exact h'.services.trans h.services
  case generation => exact h'.generation.trans h.generation
  case draining => exact h'.draining.trans h.draining
  case queue =>
    use es ++ es'
    rw [hes', hes, List.append_assoc]
    exact ⟨rfl, List.forall_mem_append.mpr ⟨hstart, hstart'⟩⟩

theorem Like.push {e : Envelope} (he : e.origin ≠ .start) :
  a.Like { a with mailbox := a.mailbox.push e }
  := ⟨rfl, rfl, rfl, rfl, rfl, rfl, [e], rfl, List.forall_mem_singleton.mpr he⟩

/-- Nothing but the services changes when one is taken out. -/
theorem exists_without (a : Actor) (id : String) (generation : Nat) :
  ∃ services, services.Sublist a.services ∧ a.without id generation = { a with services }
  := by
  rw [Actor.without]
  split
  · exact ⟨_, List.filter_sublist, rfl⟩
  · exact ⟨_, List.Sublist.refl _, rfl⟩

/-- Like interpreters stay alike when a service is taken out. -/
theorem Like.without (h : a.Like b) (id : String) (generation : Nat) :
  (a.without id generation).Like (b.without id generation)
  := by
  have hlive : b.isLive id generation = a.isLive id generation := by
    rw [isLive, isLive, h.services]
  rw [Actor.without, Actor.without, hlive]
  split
  · refine ⟨h.chart, h.status, h.state, ?_, h.generation, h.draining, h.queue⟩
    exact congrArg (Association.erase id) h.services
  · exact h

end Actor

namespace Session

open Actor

/-- The works with which an interpreter handles an envelope, in the order of the agenda. -/
def duties (s : Session) (n : Nat) : List Work :=
  s.agenda.filter (fun w => w.duty? = some n)

/-- Whether no boot marker is on its way. -/
structure Unmarked (s : Session) : Prop where
  agenda : ∀ w ∈ s.agenda, w.Unmarked
  pending : ∀ x ∈ s.clock.pending, x.task.Unmarked

/-- Whether a session gets further works, none of which posts a boot marker. -/
structure Extends (s t : Session) : Prop where
  catalog : t.catalog = s.catalog
  agenda : ∃ ws, t.agenda = ws ++ s.agenda ∧ ∀ w ∈ ws, w.Unmarked
  pending : ∀ x ∈ t.clock.pending, x ∈ s.clock.pending ∨ x.task.Unmarked

/-- Whether moreover nothing happens to an interpreter but that envelopes come in, and it gets
no duties. -/
structure Calm (n : Nat) (s t : Session) : Prop where
  catalog : t.catalog = s.catalog
  agenda : ∃ ws, t.agenda = ws ++ s.agenda ∧ ∀ w ∈ ws, w.Unmarked ∧ w.duty? ≠ some n
  pending : ∀ x ∈ t.clock.pending, x ∈ s.clock.pending ∨ x.task.Unmarked
  actor : ∀ a, s.actor? n = some a → ∃ b, t.actor? n = some b ∧ a.Like b
  born : s.actor? n = none → ∀ b, t.actor? n = some b →
    ∃ a : Actor, a.Spawned s.catalog ∧ a.Like b

/-- Whether a running interpreter gets an envelope and begins to drain its mailbox. -/
structure Wakes (n : Nat) (s t : Session) : Prop where
  actor : ∃ a b : Actor, s.actor? n = some a ∧ a.status = .running ∧ a.mailbox.draining = false ∧
    a.Like b ∧ t.actor? n = some b.claimed
  agenda : t.agenda = .pump n :: s.agenda
  clock : t.clock = s.clock
  catalog : t.catalog = s.catalog

variable {n m : Nat} {s t u : Session} {a : Actor}

/-! ### Primitive changes -/

@[simp]
theorem actor?_plan (ws : List Work) :
  (s.plan ws).actor? n = s.actor? n
  := rfl

@[simp]
theorem actor?_diagnose (d : Diagnostic) :
  (s.diagnose d).actor? n = s.actor? n
  := rfl

theorem actor?_modify (change : Actor → Actor) :
  (s.modify m change).actor? n = if m = n then (s.actor? n).map change else s.actor? n
  := by
  rw [modify, actor?, List.getElem?_modify]
  split
  · rfl
  · exact Option.map_id' ..

@[simp]
theorem actor?_modify_self (change : Actor → Actor) :
  (s.modify n change).actor? n = (s.actor? n).map change
  := by
  rw [actor?_modify, if_pos rfl]

theorem isRunning_iff (ha : s.actor? n = some a) :
  s.isRunning n = true ↔ a.status = .running
  := by
  rw [isRunning, status, ha]
  exact beq_iff_eq

theorem exists_of_isRunning (h : s.isRunning n = true) :
  ∃ a, s.actor? n = some a ∧ a.status = .running
  := by
  cases ha : s.actor? n with
  | none =>
    rw [isRunning, status, ha] at h
    cases h
  | some a => exact ⟨a, rfl, (isRunning_iff ha).mp h⟩

@[simp]
theorem agenda_plan (ws : List Work) :
  (s.plan ws).agenda = ws ++ s.agenda
  := rfl

@[simp]
theorem duties_plan (ws : List Work) :
  (s.plan ws).duties n = ws.filter (fun w => w.duty? = some n) ++ s.duties n
  := List.filter_append ..

@[simp]
theorem duties_modify (change : Actor → Actor) :
  (s.modify m change).duties n = s.duties n
  := rfl

@[simp]
theorem duties_diagnose (d : Diagnostic) :
  (s.diagnose d).duties n = s.duties n
  := rfl

theorem Calm.refl (n : Nat) (s : Session) :
  s.Calm n s
  := ⟨rfl, ⟨[], rfl, List.forall_mem_nil _⟩, fun _ => Or.inl, fun a h => ⟨a, h, .refl a⟩,
    fun h _ hb => nomatch h.symm.trans hb⟩

theorem Calm.trans (h : Calm n s t) (h' : Calm n t u) :
  Calm n s u
  := by
  constructor
  case catalog => exact h'.catalog.trans h.catalog
  case agenda =>
    obtain ⟨ws, hws, hlight⟩ := h.agenda
    obtain ⟨ws', hws', hlight'⟩ := h'.agenda
    use ws' ++ ws
    rw [hws', hws, List.append_assoc]
    exact ⟨rfl, List.forall_mem_append.mpr ⟨hlight', hlight⟩⟩
  case pending =>
    intro x hx
    rcases h'.pending x hx with hx | hx
    · exact h.pending x hx
    · exact Or.inr hx
  case actor =>
    intro a ha
    obtain ⟨b, hb, hlike⟩ := h.actor a ha
    obtain ⟨c, hc, hlike'⟩ := h'.actor b hb
    exact ⟨c, hc, hlike.trans hlike'⟩
  case born =>
    intro hs c hc
    cases ht : t.actor? n with
    | none =>
      rw [← h.catalog]
      exact h'.born ht c hc
    | some b =>
      obtain ⟨a, ha, hlike⟩ := h.born hs b ht
      obtain ⟨c', hc', hlike'⟩ := h'.actor b ht
      rw [hc, Option.some.injEq] at hc'
      subst hc'
      exact ⟨a, ha, hlike.trans hlike'⟩

/-- A change of an interpreter that does not concern its services and its mailbox. -/
theorem Calm.modify {f : Actor → Actor} (h : Calm n s t)
    (hlike : m = n → ∀ a, t.actor? n = some a → a.Like (f a)) :
  Calm n s (t.modify m f)
  := by
  apply h.trans
  constructor
  case catalog => rfl
  case agenda => exact ⟨[], rfl, List.forall_mem_nil _⟩
  case pending => exact fun _ => Or.inl
  case actor =>
    intro a ha
    rw [actor?_modify]
    split
    · next hm => exact ⟨f a, by rw [ha, Option.map_some], hlike hm a ha⟩
    · exact ⟨a, ha, .refl a⟩
  case born =>
    intro hnone b hb
    rw [actor?_modify, hnone] at hb
    split at hb <;> cases hb

/-- A change of another interpreter. -/
theorem Calm.modify_of_ne (h : Calm n s t) (hm : m ≠ n) (f : Actor → Actor) :
  Calm n s (t.modify m f)
  := h.modify (fun heq => absurd heq hm)

theorem Calm.plan {ws : List Work} (h : Calm n s t)
    (hws : ∀ w ∈ ws, w.Unmarked ∧ w.duty? ≠ some n) :
  Calm n s (t.plan ws)
  := h.trans ⟨rfl, ⟨ws, rfl, hws⟩, fun _ => Or.inl, fun a ha => ⟨a, ha, .refl a⟩,
    fun hnone _ hb => nomatch hnone.symm.trans hb⟩

/-- What is neither an interpreter nor a work nor a timer may change. -/
theorem Calm.of_eq (h : Calm n s t) (hcatalog : u.catalog = t.catalog)
    (hactors : u.actors = t.actors) (hagenda : u.agenda = t.agenda)
    (hpending : ∀ x ∈ u.clock.pending, x ∈ t.clock.pending ∨ x.task.Unmarked) :
  Calm n s u
  := by
  have hactor : u.actor? n = t.actor? n := congrArg (·[n]?) hactors
  refine h.trans ⟨hcatalog, ⟨[], hagenda, List.forall_mem_nil _⟩, hpending, ?_, ?_⟩
  · exact fun a ha => ⟨a, hactor.trans ha, .refl a⟩
  · exact fun hnone _ hb => nomatch hnone.symm.trans (hactor.symm.trans hb)

theorem Calm.observe (h : Calm n s t) (o : Observation) :
  Calm n s (t.observe o)
  := h.of_eq rfl rfl rfl (fun _ => Or.inl)

theorem Calm.diagnose (h : Calm n s t) (d : Diagnostic) :
  Calm n s (t.diagnose d)
  := h.observe _

/-- A timer is armed. -/
theorem Calm.schedule {alarm : Alarm} (h : Calm n s t) (halarm : alarm.Unmarked) (delay : Nat) :
  Calm n s { t with clock := t.clock.schedule delay alarm }
  := by
  refine h.of_eq rfl rfl rfl ?_
  intro x hx
  rcases Clock.mem_insertTimer.mp hx with rfl | hx
  · exact Or.inr halarm
  · exact Or.inl hx

theorem Calm.cancel (h : Calm n s t) (number : Nat) :
  Calm n s { t with clock := t.clock.cancel number }
  := by
  refine h.of_eq rfl rfl rfl ?_
  intro x hx
  rw [Clock.cancel] at hx
  split at hx
  · exact Or.inl hx
  · exact Or.inl hx

theorem Calm.withJobs (h : Calm n s t) (jobs : List Job) :
  Calm n s { t with jobs }
  := h.of_eq rfl rfl rfl (fun _ => Or.inl)

theorem Calm.withCallbacks (h : Calm n s t) (callbacks : List Callback) :
  Calm n s { t with callbacks }
  := h.of_eq rfl rfl rfl (fun _ => Or.inl)

/-- The duties stay as they are. -/
theorem Calm.duties (h : Calm n s t) :
  t.duties n = s.duties n
  := by
  obtain ⟨ws, hws, hlight⟩ := h.agenda
  rw [Session.duties, hws, List.filter_append, List.filter_eq_nil_iff.mpr]
  · rfl
  · intro w hw
    simpa using (hlight w hw).2

theorem Calm.extends (h : Calm n s t) :
  s.Extends t
  := by
  obtain ⟨ws, hws, hlight⟩ := h.agenda
  exact ⟨h.catalog, ⟨ws, hws, fun w hw => (hlight w hw).1⟩, h.pending⟩

theorem Wakes.extends (h : Wakes n s t) :
  s.Extends t
  := by
  refine ⟨h.catalog, ⟨[.pump n], h.agenda, ?_⟩, ?_⟩
  · exact List.forall_mem_singleton.mpr trivial
  · rw [h.clock]
    exact fun _ => Or.inl

/-! ### Mailboxes -/

theorem Calm.queue {e : Envelope} (h : Calm n s t) (he : e.origin ≠ .start) (m : Nat) :
  Calm n s (t.queue m e)
  := h.modify (fun _ _ _ => .push he)

/-- An envelope that comes in may wake an interpreter. -/
theorem stirs_enqueue {e : Envelope} (he : e.origin ≠ .start) (s : Session) (m : Nat) :
  Calm n s (s.enqueue m e) ∨ Wakes n s (s.enqueue m e)
  := by
  rw [enqueue]
  split
  next hrunning =>
    have hqueue := (Calm.refl n s).queue he m
    rw [drain]
    split
    · exact Or.inl hqueue
    · next mailbox hclaim =>
      obtain ⟨b, hb, hclaim⟩ := Option.bind_eq_some_iff.mp hclaim
      rw [Session.queue, actor?_modify_self] at hb
      obtain ⟨a, ha, rfl⟩ := Option.map_eq_some_iff.mp hb
      have hfree : a.mailbox.draining = false ∧
          mailbox = { a.mailbox.push e with draining := true } := by
        rw [Mailbox.claim?] at hclaim
        split at hclaim
        · cases hclaim
        · next hdraining =>
          exact ⟨by simpa [Mailbox.push] using hdraining, (Option.some.inj hclaim).symm⟩
      by_cases hm : m = n
      · subst hm
        right
        constructor
        case actor =>
          refine ⟨a, { a with mailbox := a.mailbox.push e }, ha, ?_, hfree.1, .push he, ?_⟩
          · exact (isRunning_iff ha).mp hrunning
          · rw [actor?_plan, actor?_modify_self, Session.queue, actor?_modify_self, ha, hfree.2]
            rfl
        case agenda => rfl
        case clock => rfl
        case catalog => rfl
      · left
        apply (hqueue.modify_of_ne hm _).plan
        simpa [Work.duty?, Work.Unmarked] using hm
  · exact Or.inl (.refl n s)

theorem stirs_post {e : Envelope} (he : e.origin ≠ .start) (s : Session) (m : Nat) :
  Calm n s (s.post m e) ∨ Wakes n s (s.post m e)
  := by
  rw [post]
  split
  · exact stirs_enqueue he s m
  · exact Or.inl (.refl n s)

theorem external_ne_start (event : Event) :
  (Envelope.external event).origin ≠ .start
  := nofun

theorem stirs_send (s : Session) (m : Nat) (event : Event) :
  Calm n s (s.send m event) ∨ Wakes n s (s.send m event)
  := by
  rw [send]
  split
  · exact Or.inl (.refl n s)
  · split
    · exact stirs_enqueue (external_ne_start event) s m
    · split
      · exact Or.inl ((Calm.refl n s).queue (external_ne_start event) m)
      · exact Or.inl ((Calm.refl n s).diagnose _)
    · exact Or.inl ((Calm.refl n s).diagnose _)

/-! ### Services -/

theorem unmarked_operate {k : Nat} {operations : List Operation} :
  ∀ w ∈ operations.map (Work.operate k), w.Unmarked ∧ w.duty? ≠ some n
  := by
  intro w hw
  obtain ⟨operation, -, rfl⟩ := List.mem_map.mp hw
  exact ⟨trivial, nofun⟩

theorem stirs_deliver (s : Session) (service : Service) (event : Event) :
  Calm n s (s.deliver service event) ∨ Wakes n s (s.deliver service event)
  := by
  rw [deliver]
  split
  · exact stirs_send s _ event
  · exact Or.inl (.refl n s)
  · split
    · exact Or.inl (.refl n s)
    · split
      · exact Or.inl (((Calm.refl n s).observe _).plan unmarked_operate)
      · exact Or.inl (.refl n s)

theorem calm_stopService (s : Session) (service : Service) :
  Calm n s (s.stopService service)
  := by
  rw [stopService]
  split
  · exact (Calm.refl n s).plan (by simp [Work.duty?, Work.Unmarked])
  · exact (Calm.refl n s).of_eq rfl rfl rfl (fun _ => Or.inl)
  · split
    · exact .refl n s
    · have hclosed := fun callbacks => (Calm.refl n s).withCallbacks callbacks
      dsimp only
      split
      · exact hclosed _
      · exact ((hclosed _).observe _).plan unmarked_operate

theorem calm_operate (s : Session) (k : Nat) (operation : Operation) :
  Calm n s (s.operate k operation)
  := by
  rw [operate]
  split
  · exact .refl n s
  · split
    · split
      · exact (Calm.refl n s).observe _
      · exact (Calm.refl n s).plan (by simp [Work.duty?, Work.Unmarked, Callback.envelope])
    · split
      · exact (Calm.refl n s).observe _
      · exact (Calm.refl n s).plan (by simp [Work.duty?, Work.Unmarked, Callback.envelope])
    · next millis event times =>
      split
      · exact .refl n s
      · have halarm : Alarm.Unmarked (.repeated k millis event times) := trivial
        exact (Calm.refl n s).schedule halarm _

theorem calm_register (hm : m ≠ n) (s : Session) (service : Service) :
  Calm n s (s.register m service)
  := by
  apply ((Calm.refl n s).modify_of_ne hm _).plan
  intro w hw
  obtain ⟨v, -, rfl⟩ := List.mem_map.mp hw
  exact ⟨trivial, nofun⟩

theorem calm_removeGeneration (hm : m ≠ n) (s : Session) (id : String) (generation : Nat) :
  Calm n s (s.removeGeneration m id generation)
  := (Calm.refl n s).modify_of_ne hm _

theorem calm_startFailed (s : Session) (m : Nat) (id : String) (data : Json) :
  Calm n s (s.startFailed m id data)
  := (Calm.refl n s).queue (external_ne_start _) m

/-- The interpreter of an invoked machine was just made for that machine. -/
theorem spawned_childActor {src : String} {machine : Machine} {catalog : List (String × Source)}
    (h : catalog.lookup src = some (.machine machine)) (link : Link) (settings : Settings)
    (data : Option Json) :
  (childActor link settings machine data).Spawned catalog
  := ⟨⟨src, machine, h, rfl⟩, rfl, rfl, rfl, rfl, rfl⟩

/-- One more interpreter is made. -/
theorem Calm.spawn {child : Actor} (h : Calm n s t) (hchild : child.Spawned t.catalog) :
  Calm n s { t with actors := t.actors ++ [child] }
  := by
  refine h.trans ⟨rfl, ⟨[], rfl, List.forall_mem_nil _⟩, fun _ => Or.inl, ?_, ?_⟩
  · intro a ha
    refine ⟨a, ?_, .refl a⟩
    exact (List.getElem?_append_left (List.getElem?_eq_some_iff.mp ha).1).trans ha
  · intro hnone b hb
    have hlength : t.actors.length ≤ n := List.getElem?_eq_none_iff.mp hnone
    change (t.actors ++ [child])[n]? = some b at hb
    rw [List.getElem?_append_right hlength] at hb
    have hlast : b = child := by
      cases hk : n - t.actors.length with
      | zero =>
        rw [hk] at hb
        exact (Option.some.inj hb).symm
      | succ k =>
        rw [hk] at hb
        cases hb
    subst hlast
    exact ⟨b, hchild, .refl b⟩

theorem calm_startService (hm : m ≠ n) (s : Session) (invocation : Invocation)
    (data : Option Json) (context : Json) (trigger : Event) :
  Calm n s (s.startService m invocation data context trigger)
  := by
  rw [startService]
  split
  next source a hsource ha =>
    have hissued := (Calm.refl n s).modify_of_ne hm
      (fun b => { b with generation := a.generation + 1 })
    dsimp only
    split
    · next machine =>
      apply (hissued.spawn (spawned_childActor hsource _ _ data)).plan
      simp [Work.duty?, Work.Unmarked, hm]
    · rw [startTask]
      dsimp only
      split
      · exact hissued.trans (calm_startFailed _ m _ _)
      · apply ((hissued.withJobs _).observe _).plan
        simp [Work.duty?, Work.Unmarked, hm]
    · rw [startCallback]
      dsimp only
      have hstarted := fun callbacks o => (hissued.withCallbacks callbacks).observe o
      split
      · exact (hstarted _ _).trans (calm_startFailed _ m _ _)
      · apply (hstarted _ _).plan
        apply List.forall_mem_append.mpr ⟨unmarked_operate, ?_⟩
        simp [Work.duty?, Work.Unmarked, hm]
  · exact (Calm.refl n s).diagnose _

/-! ### Actions -/

theorem calm_cancelSend (s : Session) (m : Nat) (id : SendId) :
  Calm n s (s.cancelSend m id)
  := by
  rw [cancelSend]
  split
  · exact .refl n s
  · next d _ =>
    have herased := (Calm.refl n s).modify (m := m)
      (f := fun a => { a with timers := Association.erase id a.timers })
      (fun _ a _ => .of_eq rfl)
    exact herased.cancel d.timer

theorem calm_route (s : Session) (m : Nat) (destination : Destination) (event : Event) :
  Calm n s (s.route m destination event)
  := by
  cases destination with
  | myself => exact (Calm.refl n s).queue (external_ne_start event) m
  | parent =>
    rw [route]
    split
    · exact (Calm.refl n s).plan (by simp [Work.duty?, Work.Unmarked])
    · exact (Calm.refl n s).diagnose _
  | child id =>
    rw [route]
    split
    · exact (Calm.refl n s).plan (by simp [Work.duty?, Work.Unmarked])
    · exact (Calm.refl n s).diagnose _

theorem calm_armSend (s : Session) (m : Nat) (send : Send) (delay : Nat) :
  Calm n s (s.armSend m send delay)
  := by
  rw [armSend]
  split
  · exact .refl n s
  · next a _ =>
    have hcancelled := ((Calm.refl n s).modify (m := m)
      (f := fun b => { b with timerGeneration := a.timerGeneration + 1 })
      (fun _ b _ => .of_eq rfl)).trans (calm_cancelSend _ m
        ((send.id.map SendId.named).getD (.automatic (a.timerGeneration + 1))))
    dsimp only
    split
    · exact hcancelled.diagnose _
    · have halarm : ∀ id, Alarm.Unmarked
          (.post m ⟨send.event, .timer id (a.timerGeneration + 1)⟩) := fun id => nofun
      refine (hcancelled.modify (fun _ b _ => ?_)).schedule (halarm _) _
      exact .of_eq rfl

theorem calm_dispatch (s : Session) (m : Nat) (send : Send) :
  Calm n s (s.dispatch m send)
  := by
  rw [dispatch]
  split
  · exact calm_armSend s m send _
  · exact calm_route s m _ _

theorem calm_log (s : Session) (m : Nat) (snapshot : Snapshot) (trigger : Event)
    (expression : Option Expression) (label : Option String) :
  Calm n s (s.log m snapshot trigger expression label)
  := by
  cases expression with
  | none => exact (Calm.refl n s).observe _
  | some e =>
    rw [log]
    split
    · exact (Calm.refl n s).observe _
    · exact .refl n s

theorem unmarked_requested (requests : List Request) :
  ∀ w ∈ requests.map requested, w.Unmarked ∧ w.duty? ≠ some n
  := by
  intro w hw
  obtain ⟨request, -, rfl⟩ := List.mem_map.mp hw
  cases request <;> exact ⟨trivial, nofun⟩

/-- An action leaves the services of an interpreter as they are, unless it stops one of
them. -/
theorem calm_perform {action : ResolvedAction} (s : Session) (snapshot : Snapshot)
    (hstop : m = n → ∀ id a, action.duty = .stop id → s.actor? n = some a →
      a.status = .running → a.services.lookup id = none) :
  Calm n s (s.perform m snapshot action)
  := by
  rw [perform]
  split
  · exact .refl n s
  next hrunning =>
    split
    · exact .refl n s
    · exact ((Calm.refl n s).observe _).plan (unmarked_requested _)
    · exact calm_dispatch s m _
    · exact calm_log s m snapshot _ _ _
    · exact calm_cancelSend s m _
    · next id hduty =>
      split
      · exact .refl n s
      · next service hlookup =>
        obtain ⟨a, ha, hlookup⟩ := Option.bind_eq_some_iff.mp hlookup
        have hm : m ≠ n := by
          rintro rfl
          rw [hstop rfl id a hduty ha ((isRunning_iff ha).mp (by simpa using hrunning))] at hlookup
          cases hlookup
        apply ((Calm.refl n s).modify_of_ne hm _).plan
        simp [Work.duty?, Work.Unmarked]
    · exact (Calm.refl n s).diagnose _

theorem calm_invoke (hm : m ≠ n) (s : Session) (snapshot : Snapshot) (action : ResolvedAction)
    (later : List ResolvedAction) :
  Calm n s (s.invoke m snapshot action later)
  := by
  rw [invoke]
  split
  · split
    · exact .refl n s
    · exact calm_startService hm s _ _ _ _
  · exact .refl n s

/-! ### Snapshots -/

/-- The works that follow a new snapshot. -/
def committed (n : Nat) (snapshot : Snapshot) : List Work :=
  snapshot.actions.map (.perform n snapshot) ++ invocations n snapshot snapshot.actions ++
    [.publish n snapshot]

theorem duty?_of_mem_invocations {snapshot : Snapshot} {actions : List ResolvedAction} {w : Work}
    (hw : w ∈ invocations m snapshot actions) :
  ∃ action later, w = .invoke m snapshot action later ∧ action :: later <:+ actions
  := by
  induction actions with
  | nil => cases hw
  | cons action actions ih =>
    have hrest : w ∈ invocations m snapshot actions →
        ∃ a later, w = .invoke m snapshot a later ∧ a :: later <:+ action :: actions := by
      intro hw
      obtain ⟨a, later, rfl, hlater⟩ := ih hw
      exact ⟨a, later, rfl, hlater.trans (List.suffix_cons action actions)⟩
    rw [invocations] at hw
    split at hw
    · rcases List.mem_cons.mp hw with rfl | hw
      · exact ⟨action, actions, rfl, List.suffix_refl _⟩
      · exact hrest hw
    · exact hrest hw

/-- All works that follow a new snapshot are duties of the interpreter. -/
theorem duty_of_mem_committed {snapshot : Snapshot} {w : Work} (hw : w ∈ committed m snapshot) :
  w.Unmarked ∧ w.duty? = some m
  := by
  rw [committed, List.mem_append, List.mem_append] at hw
  rcases hw with (hw | hw) | hw
  · obtain ⟨action, -, rfl⟩ := List.mem_map.mp hw
    exact ⟨trivial, rfl⟩
  · obtain ⟨action, later, rfl, -⟩ := duty?_of_mem_invocations hw
    exact ⟨trivial, rfl⟩
  · rw [List.mem_singleton.mp hw]
    exact ⟨trivial, rfl⟩

theorem calm_commit (hm : m ≠ n) (s : Session) (snapshot : Snapshot) :
  Calm n s (s.commit m snapshot)
  := by
  apply ((Calm.refl n s).modify_of_ne hm _).plan
  intro w hw
  obtain ⟨hlight, hduty⟩ := duty_of_mem_committed hw
  exact ⟨hlight, fun h => hm (Option.some.inj (hduty.symm.trans h))⟩

theorem calm_fail {andThen : List Work} (s : Session) (m : Nat) (fault : Fault)
    (hthen : ∀ w ∈ andThen, w.Unmarked ∧ w.duty? ≠ some n) :
  Calm n s (s.fail m fault andThen)
  := ((Calm.refl n s).diagnose _).plan
    (List.forall_mem_cons.mpr ⟨⟨trivial, nofun⟩, hthen⟩)

theorem calm_boot (hm : m ≠ n) (s : Session) :
  Calm n s (s.boot m)
  := by
  rw [boot]
  split
  · exact .refl n s
  · have hresumed := (Calm.refl n s).modify_of_ne hm (fun a => { a with resume := none })
    dsimp only
    split
    · exact hresumed.trans (calm_commit hm _ _)
    · exact hresumed.trans (calm_fail _ m _ (by simp [Work.duty?, Work.Unmarked, hm]))

theorem calm_macrostep (hm : m ≠ n) (s : Session) (event : Event) (origin : Origin) :
  Calm n s (s.macrostep m event origin)
  := by
  rw [macrostep]
  split
  · exact .refl n s
  · split
    · exact .refl n s
    · apply (Calm.refl n s).plan
      intro w hw
      rcases List.mem_append.mp hw with hw | hw
      · obtain ⟨service, -, rfl⟩ := List.mem_map.mp hw
        exact ⟨trivial, nofun⟩
      · rw [List.mem_singleton.mp hw]
        exact ⟨trivial, by simpa [Work.duty?] using hm⟩

theorem calm_react (hm : m ≠ n) (s : Session) (snapshot : Snapshot) (event : Event) :
  Calm n s (s.react m snapshot event)
  := by
  rw [react]
  split
  · exact .refl n s
  · split
    · exact calm_commit hm s _
    · exact calm_fail s m _ (List.forall_mem_nil _)

theorem calm_handle (hm : m ≠ n) (s : Session) (e : Envelope) :
  Calm n s (s.handle m e)
  := by
  have hmacrostep : ∀ {t}, Calm n s t → Calm n s (t.plan [.macrostep m e.event e.origin]) :=
    fun h => h.plan (by simp [Work.duty?, Work.Unmarked, hm])
  rw [handle]
  split
  · exact .refl n s
  · split
    · exact calm_boot hm s
    · exact hmacrostep (.refl n s)
    · split
      · dsimp only
        split
        · exact hmacrostep (calm_removeGeneration hm s _ _)
        · exact hmacrostep (.refl n s)
      · exact .refl n s
    · split
      · exact .refl n s
      · split
        · have herased := (Calm.refl n s).modify_of_ne hm
          dsimp only
          split
          · exact hmacrostep (herased _)
          · exact (herased _).trans (calm_route _ m _ _)
        · exact .refl n s

theorem calm_pump (hm : m ≠ n) (s : Session) :
  Calm n s (s.pump m)
  := by
  rw [pump]
  split
  · exact .refl n s
  · split
    · exact (Calm.refl n s).modify_of_ne hm _
    · apply ((Calm.refl n s).modify_of_ne hm _).plan
      simp [Work.duty?, Work.Unmarked, hm]

theorem calm_foldl_observe {α : Type} (f : α → Observation) (xs : List α) (s : Session) :
  Calm n s (xs.foldl (fun s x => s.observe (f x)) s)
  := by
  induction xs generalizing s with
  | nil => exact .refl n s
  | cons x xs ih => exact ((Calm.refl n s).observe (f x)).trans (ih _)

theorem calm_publish (s : Session) (m : Nat) (snapshot : Snapshot) :
  Calm n s (s.publish m snapshot)
  := by
  rw [publish]
  split
  · exact .refl n s
  · next a _ =>
    split
    · exact .refl n s
    · have hshown := calm_foldl_observe (n := n) (fun l => .published l snapshot)
        a.listeners.toList s
      dsimp only
      split
      · exact hshown
      · apply Calm.plan
        · split
          · exact hshown.observe _
          · exact hshown
        · intro w hw
          rcases List.mem_append.mp hw with hw | hw
          · obtain ⟨link, -, rfl⟩ := List.mem_map.mp hw
            exact ⟨nofun, nofun⟩
          · rw [List.mem_singleton.mp hw]
            exact ⟨trivial, nofun⟩

theorem calm_foldl_cancelSend (timers : List (SendId × DelayedSend)) (s : Session) (m : Nat) :
  Calm n s (timers.foldl (fun s t => s.cancelSend m t.1) s)
  := by
  induction timers generalizing s with
  | nil => exact .refl n s
  | cons t timers ih => exact (calm_cancelSend s m t.1).trans (ih _)

theorem calm_stop (hm : m ≠ n) (s : Session) :
  Calm n s (s.stop m)
  := by
  rw [stop]
  split
  · exact .refl n s
  · split
    · exact .refl n s
    · next a _ _ =>
      have hstopped := ((Calm.refl n s).modify_of_ne hm
        (fun a => { a with status := .stopped })).trans (calm_foldl_cancelSend a.timers _ m)
      apply (hstopped.modify_of_ne hm _).plan
      intro w hw
      rcases List.mem_append.mp hw with hw | hw
      · obtain ⟨e, -, rfl⟩ := List.mem_map.mp hw
        exact ⟨trivial, nofun⟩
      · rw [List.mem_singleton.mp hw]
        exact ⟨trivial, nofun⟩

theorem calm_start (hm : m ≠ n) (s : Session) :
  Calm n s (s.start m)
  := by
  rw [start]
  split
  · exact (Calm.refl n s).diagnose _
  · have hstarted := (Calm.refl n s).modify_of_ne hm (fun a => { a with
      mailbox := a.mailbox.pushFront ⟨.init, .start⟩
      status := .running })
    rw [drain]
    split
    · exact hstarted
    · apply (hstarted.modify_of_ne hm _).plan
      simp [Work.duty?, Work.Unmarked, hm]

theorem calm_confirmStart (hm : m ≠ n) (s : Session) (child : Nat) (id : String)
    (generation : Nat) :
  Calm n s (s.confirmStart m child id generation)
  := by
  rw [confirmStart]
  split
  · exact .refl n s
  · have htaken := (Calm.refl n s).modify (m := child)
      (f := fun a => { a with startFault := none }) (fun _ a _ => .of_eq rfl)
    exact (htaken.trans (calm_removeGeneration hm _ _ _)).trans (calm_startFailed _ m _ _)

theorem calm_unsubscribe (s : Session) (listener : String) :
  Calm n s (s.unsubscribe listener)
  := by
  rw [unsubscribe]
  split
  · exact .refl n s
  · next number _ =>
    have hremoved := (Calm.refl n s).modify (m := root)
      (f := fun a => { a with listeners := a.listeners.unsubscribe number })
      (fun _ a _ => .of_eq rfl)
    exact hremoved.of_eq rfl rfl rfl (fun _ => Or.inl)

theorem calm_settle (s : Session) :
  Calm n s s.settle
  := by
  rw [settle]
  dsimp only
  split
  · exact .refl n s
  · next owner j e hfound =>
    have he : e.origin ≠ .start := by
      obtain ⟨⟨job, k⟩, -, hjob⟩ := List.exists_of_findSome?_eq_some hfound
      split at hjob
      · obtain ⟨e', he', heq⟩ := Option.map_eq_some_iff.mp hjob
        cases heq
        rw [Job.result?] at he'
        split at he' <;> cases he' <;> exact nofun
      · cases hjob
    apply ((Calm.refl n s).withJobs _).plan
    simpa [Work.duty?, Work.Unmarked] using he

/-! ### Works -/

/-- What a work can do to an interpreter to which it is no duty. -/
inductive Outside (n : Nat) (s : Session) : Work → Session → Prop where
  | calm {w t} (h : Calm n s t) : Outside n s w t
  | wakes {w t} (h : Wakes n s t) : Outside n s w t
  | start : Outside n s (.start n) (s.start n)
  | stop : Outside n s (.stop n) (s.stop n)
  | release : Outside n s (.release n) (s.release n)

theorem Outside.of_stirs {w : Work} (h : Calm n s t ∨ Wakes n s t) :
  Outside n s w t
  := by
  rcases h with h | h
  · exact .calm h
  · exact .wakes h

/-- A timer that becomes due does its task. -/
theorem stirs_ring {alarm : Alarm} (h : alarm.Unmarked) (s : Session) :
  Calm n s (s.ring alarm) ∨ Wakes n s (s.ring alarm)
  := by
  cases alarm with
  | post m e => exact stirs_post h s m
  | repeated k millis event times =>
    exact Or.inl ((Calm.refl n s).plan (by simp [Work.duty?, Work.Unmarked]))

theorem calm_advance (hpending : ∀ x ∈ s.clock.pending, x.task.Unmarked) (target : Nat) :
  Calm n s (s.advance target)
  := by
  rw [advance]
  split
  · exact (Calm.refl n s).of_eq rfl rfl rfl (fun _ => Or.inl)
  · next x clock hdue =>
    have hnext : x ∈ s.clock.pending ∧ ∀ y ∈ clock.pending, y ∈ s.clock.pending := by
      rw [Clock.due?] at hdue
      split at hdue
      · cases hdue
      · next y rest hrest =>
        split at hdue
        · cases hdue
          rw [hrest]
          exact ⟨List.mem_cons_self, fun y => List.mem_cons_of_mem _⟩
        · cases hdue
    have hclock : Calm n s { s with clock } :=
      (Calm.refl n s).of_eq rfl rfl rfl (fun y hy => Or.inl (hnext.2 y hy))
    have hring := hpending x hnext.1
    dsimp only
    split
    · exact hclock.plan (by simp [Work.duty?, Work.Unmarked])
    · exact hclock.plan (by simpa [Work.duty?, Work.Unmarked] using hring)

/-- What a work can do to an interpreter to which it is no duty: unless it starts, stops or
empties that interpreter, it brings envelopes at most, of which the first one wakes it. -/
theorem outside_carryOut {w : Work} (hw : w.Unmarked)
    (hpending : ∀ x ∈ s.clock.pending, x.task.Unmarked) (hduty : w.duty? ≠ some n) :
  Outside n s w (s.carryOut w)
  := by
  have hne : ∀ m, w.duty? = some m → m ≠ n := by
    rintro m hm rfl
    exact hduty hm
  cases w with
  | start m =>
    by_cases hm : m = n
    · subst hm
      exact .start
    · exact .calm (calm_start hm s)
  | send m event => exact .of_stirs (stirs_send s m event)
  | post m e => exact .of_stirs (stirs_post hw s m)
  | pump m => exact .calm (calm_pump (hne m rfl) s)
  | handle m e => exact .calm (calm_handle (hne m rfl) s e)
  | macrostep m event origin => exact .calm (calm_macrostep (hne m rfl) s event origin)
  | react m snapshot event => exact .calm (calm_react (hne m rfl) s snapshot event)
  | perform m snapshot action =>
    exact .calm (calm_perform s snapshot (fun h => absurd h (hne m rfl)))
  | invoke m snapshot action later =>
    exact .calm (calm_invoke (hne m rfl) s snapshot action later)
  | publish m snapshot => exact .calm (calm_publish s m snapshot)
  | stop m =>
    by_cases hm : m = n
    · subst hm
      exact .stop
    · exact .calm (calm_stop hm s)
  | release m =>
    by_cases hm : m = n
    · subst hm
      exact .release
    · exact .calm ((Calm.refl n s).modify_of_ne hm _)
  | recordFault m fault =>
    exact .calm ((Calm.refl n s).modify_of_ne (hne m rfl) _)
  | confirmStart m child id generation =>
    exact .calm (calm_confirmStart (hne m rfl) s child id generation)
  | register m service => exact .calm (calm_register (hne m rfl) s service)
  | deliver service event => exact .of_stirs (stirs_deliver s service event)
  | stopService service => exact .calm (calm_stopService s service)
  | operate k operation => exact .calm (calm_operate s k operation)
  | noteSent k event =>
    rw [carryOut]
    split
    · exact .calm (.refl n s)
    · exact .calm ((Calm.refl n s).observe _)
  | noteFailed k =>
    rw [carryOut]
    split
    · exact .calm (.refl n s)
    · exact .calm ((Calm.refl n s).observe _)
  | unsubscribe listener => exact .calm (calm_unsubscribe s listener)
  | advance target => exact .calm (calm_advance hpending target)
  | ring alarm => exact .of_stirs (stirs_ring hw s)
  | settle => exact .calm (calm_settle s)

end Session

end Statechart
